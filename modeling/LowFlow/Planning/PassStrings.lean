import LowFlow.Core.Passes
import LowFlow.Library.Recording
import LowFlow.Memory.StackToList
import LowFlow.Planning.ValSchedule
import LowFlow.Runtime.Flow

/-!
# The strings of the pass pipeline

`core/passes.c`, `core/logger.c` and `planning/passes/flow_partition.c`, with the
members of the strings as they are in memory. A string is embedded in the logger of
the pipeline, in each pass, and in the logger of each flow. The steps that create
them set the number of characters in a block, and hand the string to
`lf_init_string`, which goes by the arena and the slice. No step sets these
(`strings_never_set`).
-/

set_option autoImplicit false

namespace LowFlow

open Library

/-! ## Strings in memory -/

/-- A member of a struct: what its memory held before, or what a step stored. -/
inductive Member (α : Type) where
  | leftover (value : α)
  | stored (value : α)
deriving DecidableEq, Repr

def Member.value {α : Type} : Member α → α
  | .leftover value => value
  | .stored value => value

/-- `LF_String`, with the addresses of its arena and its slice. -/
structure StringMembers where
  arena : Member ℕ
  slice : Member ℕ
  charQttInBlock : Member ℕ
deriving DecidableEq, Repr

/-- The memory of a string before it is set. -/
structure RawString where
  arena : ℕ
  slice : ℕ
  charQttInBlock : ℕ

def RawString.members (raw : RawString) : StringMembers :=
  ⟨.leftover raw.arena, .leftover raw.slice, .leftover raw.charQttInBlock⟩

/-- The arenas and the initialized slices that exist, by address. -/
structure Objects where
  arenas : ℕ → Option (Arena UInt8)
  slices : ℕ → Option ArenaSlice

/-- The string that the members lead to. At `NULL` there is no arena. -/
def StringMembers.load (str : StringMembers) (objects : Objects) : Option (LFString UInt8) := do
  if str.arena.value = 0 then none
  let arena ← objects.arenas str.arena.value
  let slice ← if str.slice.value = 0 then some none
    else (objects.slices str.slice.value).map some
  some ⟨arena, slice, str.charQttInBlock.value⟩

/-- The arena and the slice of the string, in the place of the old ones. -/
def StringMembers.save (str : StringMembers) (objects : Objects) (value : LFString UInt8) :
    Objects where
  arenas := Function.update objects.arenas str.arena.value (some value.arena)
  slices := match value.slice with
    | none => objects.slices
    | some slice => Function.update objects.slices str.slice.value (some slice)

/-- A string that comes to `lf_init_string`, and what exists then. -/
structure Reached where
  str : StringMembers
  objects : Objects

/-- The arena was set to an existing one, and the slice to `NULL` or to an initialized one. -/
structure Reached.IsSet (reached : Reached) : Prop where
  arena : ∃ address, reached.str.arena = .stored address ∧
    (reached.objects.arenas address).isSome = true
  slice : ∃ address, reached.str.slice = .stored address ∧
    (address = 0 ∨ (reached.objects.slices address).isSome = true)

/-- `lf_init_string` on a string in memory, which is recorded. -/
def initStringMembers (str : StringMembers) (objects : Objects) : Recording Reached Objects := do
  Recording.record ⟨str, objects⟩
  let value ← .ofOption (str.load objects)
  let value ← .ofOption (lfInitString value)
  pure (str.save objects value)

/-- `lf_alloc_string` on a string in memory, and copying the characters there. -/
def storeChars (str : StringMembers) (objects : Objects) (chars : List UInt8) : Option Objects := do
  let value ← str.load objects
  let (ptr, value) ← lfAllocString value chars.length
  let heap ← value.arena.heap.store ptr chars
  some (str.save objects { value with arena := { value.arena with heap } })

/-! ## Loggers -/

/-- `LF_LogLevel`. -/
inductive LogLevel where
  | debug
  | info
  | warning
  | error
  | fatal
deriving DecidableEq, Repr

/-- `LF_Logger`, with the members that initializing reads or sets. -/
structure Logger where
  minLevel : Member LogLevel
  buf : StringMembers
  timeFmt : Member (Option String)

def loggerBufCharQttInBlock : ℕ := 512

def lfInitLogger (logger : Logger) (objects : Objects) : Recording Reached (Logger × Objects) := do
  let buf := { logger.buf with charQttInBlock := .stored loggerBufCharQttInBlock }
  let objects ← initStringMembers buf objects
  let timeFmt := if logger.timeFmt.value.isNone then .stored (some "%Y-%m-%d %H:%M:%S")
    else logger.timeFmt
  pure ({ logger with buf, timeFmt }, objects)

/-! ## The pipeline -/

/-- The functions of the passes. -/
inductive PassFn where
  | buildValSchedule
  | partitionFlows
deriving DecidableEq, Repr

/-- `LF_Pass`. -/
structure LFPass where
  name : StringMembers
  applyFn : PassFn
deriving DecidableEq, Repr

/-- `LF_FlowPartitionStrategy`. -/
inductive FlowPartitionStrategy where
  | none
  | valCount
deriving DecidableEq, Repr

/-- `sizeof(LF_Flow)`. -/
def flowSize : ℕ := 336

def passPipelineValScheduleQttInBlock : ℕ := 256

def passPipelineFlowQttInBlock : ℕ := 256

/-- `LF_FLOW_LOGGER_MIN_LEVEL`. -/
def flowLoggerMinLevel : LogLevel := .debug

/-- What a run depends on: what the memory of the strings held, in the order in which
they are created, the values, and the allocators. The loops of the passes go on for so
many rounds at most. -/
structure Setting where
  leftover : ℕ → RawString
  values : Values
  rounds : ℕ
  passesMalloc : Allocator (Cell LFPass)
  valsMalloc : Allocator (Cell ValuePtr)
  newValsMalloc : Allocator (Cell Value)
  flowsMalloc : Allocator UInt8

/-- `LF_PassPipeline`, with the arenas and slices that exist, and the number of strings
created so far. -/
structure LFPassPipeline where
  logger : Logger
  entrypoint : Option ValuePtr
  valSchedule : Stack (Cell ValuePtr)
  flowPartitionStrategy : FlowPartitionStrategy
  flows : LFList (Cell ValuePtr)
  parentFlow : Option (Logger × Flow)
  passes : LFList (Cell LFPass)
  objects : Objects
  created : ℕ

/-- A pipeline as the caller declares it: the buffer of its logger is not set. -/
def LFPassPipeline.declared (setting : Setting) (minLevel : Member LogLevel)
    (timeFmt : Member (Option String)) (entrypoint : Option ValuePtr)
    (flowPartitionStrategy : FlowPartitionStrategy) (objects : Objects) : LFPassPipeline where
  logger := ⟨minLevel, (setting.leftover 0).members, timeFmt⟩
  entrypoint := entrypoint
  valSchedule := Stack.declared setting.valsMalloc 0 0 0
  flowPartitionStrategy := flowPartitionStrategy
  flows := LFList.declared setting.valsMalloc 0 0 0
  parentFlow := none
  passes := LFList.declared setting.passesMalloc 0 0 0
  objects := objects
  created := 1

namespace LFPassPipeline

/-- `lf_init_pass_pipeline`. -/
def init (setting : Setting) (pipeline : LFPassPipeline) : Recording Reached LFPassPipeline := do
  let (logger, objects) ← lfInitLogger pipeline.logger pipeline.objects
  let passes ← .ofOption (lfInitList
    (LFList.declared setting.passesMalloc passPipelinePassQtt passSize 8))
  let valSchedule ← .ofOption (lfInitStack (Stack.declared setting.valsMalloc
    passPipelineValScheduleQttInBlock pointerSize pointerSize))
  let flows ← .ofOption (lfInitList (LFList.declared setting.valsMalloc
    passPipelineFlowQttInBlock pointerSize pointerSize))
  pure { pipeline with logger, objects, passes, valSchedule, flows }

/-- `lf_push_pass`. The name is copied with the zero behind it. -/
def pushPass (setting : Setting) (name : List UInt8) (applyFn : PassFn)
    (pipeline : LFPassPipeline) : Recording Reached LFPassPipeline := do
  let (pass, passes) ← .ofOption (lfAllocListElem pipeline.passes)
  let namePaddedSize := name.length + 1
  let str := { (setting.leftover pipeline.created).members with
    charQttInBlock := .stored namePaddedSize }
  let objects ← initStringMembers str pipeline.objects
  let objects ← .ofOption (storeChars str objects (name ++ [0]))
  let passes ← .ofOption (passes.write passSize pass ⟨str, applyFn⟩)
  pure { pipeline with passes, objects, created := pipeline.created + 1 }

/-- `lf_partition_flows`, with the logger of the flow that `lf_init_flow` initializes. -/
def partitionFlows (setting : Setting) (pipeline : LFPassPipeline) :
    Recording Reached LFPassPipeline := do
  if pipeline.flowPartitionStrategy ≠ .none then .ofOption none
  else
    let flows ← .ofOption (lfInitList (LFList.declared setting.flowsMalloc 1 flowSize 8))
    let _ ← .ofOption (lfAllocListElem flows)
    let elemQttInBlock := pipeline.valSchedule.elemQttInBlock
    if elemQttInBlock < 2 then .ofOption none
    else
      let logger : Logger :=
        ⟨.stored flowLoggerMinLevel, (setting.leftover pipeline.created).members, .stored none⟩
      let (logger, objects) ← lfInitLogger logger pipeline.objects
      let flow ← .ofOption (lfInitFlow (Flow.declared setting.valsMalloc setting.valsMalloc
        setting.newValsMalloc elemQttInBlock))
      let (valSchedule, schedule) ← .ofOption (lfStackToList pipeline.valSchedule flow.valSchedule)
      pure
        { pipeline with
          valSchedule, objects
          parentFlow := some (logger, { flow with valSchedule := schedule })
          created := pipeline.created + 1 }

/-- `apply_fn` of a pass. -/
def apply (setting : Setting) (pipeline : LFPassPipeline) :
    PassFn → Recording Reached LFPassPipeline
  | .buildValSchedule => do
      let scheduled ← .ofOption (lfBuildValSchedule setting.values setting.valsMalloc setting.rounds
        ⟨pipeline.entrypoint, pipeline.valSchedule⟩)
      pure { pipeline with valSchedule := scheduled.valSchedule }
  | .partitionFlows => pipeline.partitionFlows setting

/-- The loop of `lf_process_pass_pipeline`. -/
def processFrom (setting : Setting) :
    ℕ → Option Ptr → LFPassPipeline → Recording Reached LFPassPipeline
  | 0, _, _ => .ofOption none
  | _ + 1, none, pipeline => pure pipeline
  | fuel + 1, some curPass, pipeline => do
      let pass ← .ofOption (pipeline.passes.read passSize curPass)
      let pipeline ← pipeline.apply setting pass.applyFn
      let (next, passes) ← .ofOption (lfGetNextListElem pipeline.passes curPass)
      processFrom setting fuel next { pipeline with passes }

/-- `lf_process_pass_pipeline`. -/
def process (setting : Setting) (pipeline : LFPassPipeline) : Recording Reached LFPassPipeline := do
  let (curPass, passes) ← .ofOption (lfGetFirstListElem pipeline.passes)
  processFrom setting setting.rounds curPass { pipeline with passes }

end LFPassPipeline

/-- The calls of the caller. -/
inductive PipelineCall where
  | initPassPipeline
  | pushPass (name : List UInt8) (applyFn : PassFn)
  | processPassPipeline
deriving DecidableEq, Repr

def pipelineCall (setting : Setting) (pipeline : LFPassPipeline) :
    PipelineCall → Recording Reached LFPassPipeline
  | .initPassPipeline => pipeline.init setting
  | .pushPass name applyFn => pipeline.pushPass setting name applyFn
  | .processPassPipeline => pipeline.process setting

/-- The calls, one after the other, until one fails. -/
def pipelineCalls (setting : Setting) :
    LFPassPipeline → List PipelineCall → Recording Reached LFPassPipeline
  | pipeline, [] => pure pipeline
  | pipeline, call :: calls => do
      let pipeline ← pipelineCall setting pipeline call
      pipelineCalls setting pipeline calls

/-- In this run each string that comes to `lf_init_string` was set before. -/
def StringsSet (setting : Setting) (pipeline : LFPassPipeline) (calls : List PipelineCall) : Prop :=
  ∀ reached ∈ (pipelineCalls setting pipeline calls).events, reached.IsSet

/-! ## No step sets a string -/

/-- The arena and the slice are what was in memory. -/
structure StringMembers.Unset (str : StringMembers) : Prop where
  arena : ∃ address, str.arena = .leftover address
  slice : ∃ address, str.slice = .leftover address

/-- What is recorded is not set, and the result has this property. -/
abbrev ReachesUnset {α : Type} (m : Recording Reached α) (Q : α → Prop) : Prop :=
  m.Meets (fun reached => reached.str.Unset) Q

theorem RawString.unset (raw : RawString) : raw.members.Unset :=
  ⟨⟨_, rfl⟩, ⟨_, rfl⟩⟩

/-- Setting the number of characters sets neither. -/
theorem StringMembers.Unset.withQtt {str : StringMembers} (unset : str.Unset)
    (charQttInBlock : Member ℕ) : StringMembers.Unset { str with charQttInBlock } :=
  ⟨unset.arena, unset.slice⟩

theorem Reached.not_isSet {reached : Reached} (unset : reached.str.Unset) : ¬ reached.IsSet := by
  rintro ⟨⟨address, set, -⟩, -⟩
  obtain ⟨old, left⟩ := unset.arena
  rw [left] at set
  cases set

section Steps

variable {setting : Setting} {pipeline : LFPassPipeline}

/-- A step that records nothing. -/
theorem ReachesUnset.quiet {α : Type} (o : Option α) :
    ReachesUnset (.ofOption o) fun _ => True :=
  .ofOption fun _ _ => trivial

theorem initStringMembers_unset {str : StringMembers} (unset : str.Unset) (objects : Objects) :
    ReachesUnset (initStringMembers str objects) fun _ => True := by
  have recorded : ReachesUnset (Recording.record ⟨str, objects⟩) fun _ => True := .record unset
  apply recorded.bind
  intro _ _
  refine (ReachesUnset.quiet _).bind ?_
  intro value _
  exact (ReachesUnset.quiet _).bind fun value _ => .pure trivial

/-- Initializing a logger leaves the arena and the slice of its buffer. -/
theorem lfInitLogger_unset {logger : Logger} (unset : logger.buf.Unset) (objects : Objects) :
    ReachesUnset (lfInitLogger logger objects) fun result => result.1.buf.Unset := by
  have given := unset.withQtt (.stored loggerBufCharQttInBlock)
  exact (initStringMembers_unset given objects).bind fun objects _ => .pure given

namespace LFPassPipeline

/-- The buffer of the logger is not set. -/
def BufUnset (pipeline : LFPassPipeline) : Prop :=
  pipeline.logger.buf.Unset

theorem init_unset (unset : pipeline.BufUnset) :
    ReachesUnset (pipeline.init setting) BufUnset := by
  refine (lfInitLogger_unset unset pipeline.objects).bind ?_
  rintro ⟨logger, objects⟩ unset'
  refine (ReachesUnset.quiet _).bind ?_
  intro passes _
  refine (ReachesUnset.quiet _).bind ?_
  intro valSchedule _
  exact (ReachesUnset.quiet _).bind fun flows _ => .pure unset'

theorem pushPass_unset (unset : pipeline.BufUnset) (name : List UInt8) (applyFn : PassFn) :
    ReachesUnset (pipeline.pushPass setting name applyFn) BufUnset := by
  refine (ReachesUnset.quiet _).bind ?_
  rintro ⟨pass, passes⟩ -
  have given := (setting.leftover pipeline.created).unset.withQtt (.stored (name.length + 1))
  refine (initStringMembers_unset given _).bind ?_
  intro objects _
  refine (ReachesUnset.quiet _).bind ?_
  intro objects _
  exact (ReachesUnset.quiet _).bind fun passes _ => .pure unset

theorem partitionFlows_unset (unset : pipeline.BufUnset) :
    ReachesUnset (pipeline.partitionFlows setting) BufUnset := by
  rw [partitionFlows]
  split
  · exact .ofOption fun _ failed => by cases failed
  refine (ReachesUnset.quiet _).bind ?_
  intro flows _
  refine (ReachesUnset.quiet _).bind ?_
  intro _ _
  dsimp only
  split
  · exact .ofOption fun _ failed => by cases failed
  refine (lfInitLogger_unset (setting.leftover pipeline.created).unset _).bind ?_
  rintro ⟨logger, objects⟩ -
  refine (ReachesUnset.quiet _).bind ?_
  intro flow _
  refine (ReachesUnset.quiet _).bind ?_
  rintro ⟨valSchedule, schedule⟩ -
  exact .pure unset

theorem apply_unset (unset : pipeline.BufUnset) (applyFn : PassFn) :
    ReachesUnset (pipeline.apply setting applyFn) BufUnset := by
  cases applyFn with
  | buildValSchedule => exact (ReachesUnset.quiet _).bind fun scheduled _ => .pure unset
  | partitionFlows => exact partitionFlows_unset unset

/-- The induction is on the rounds. -/
theorem processFrom_unset {fuel : ℕ} {curPass : Option Ptr} (unset : pipeline.BufUnset) :
    ReachesUnset (processFrom setting fuel curPass pipeline) BufUnset := by
  induction fuel generalizing curPass pipeline with
  | zero => exact .ofOption fun _ failed => by cases failed
  | succ fuel ih =>
      cases curPass with
      | none => exact .pure unset
      | some curPass =>
          refine (ReachesUnset.quiet _).bind ?_
          intro pass _
          refine (apply_unset unset pass.applyFn).bind ?_
          intro pipeline' unset'
          refine (ReachesUnset.quiet _).bind ?_
          rintro ⟨next, passes⟩ -
          exact ih unset'

theorem process_unset (unset : pipeline.BufUnset) :
    ReachesUnset (pipeline.process setting) BufUnset := by
  refine (ReachesUnset.quiet _).bind ?_
  rintro ⟨curPass, passes⟩ -
  exact processFrom_unset unset

end LFPassPipeline

/-- **No call sets a string** before it comes to `lf_init_string`. -/
theorem pipelineCalls_unset (unset : pipeline.BufUnset) (calls : List PipelineCall) :
    ReachesUnset (pipelineCalls setting pipeline calls) LFPassPipeline.BufUnset := by
  induction calls generalizing pipeline with
  | nil => exact .pure unset
  | cons call calls ih =>
      have first : ReachesUnset (pipelineCall setting pipeline call) LFPassPipeline.BufUnset := by
        cases call with
        | initPassPipeline => exact LFPassPipeline.init_unset unset
        | pushPass name applyFn => exact LFPassPipeline.pushPass_unset unset name applyFn
        | processPassPipeline => exact LFPassPipeline.process_unset unset
      exact first.bind fun pipeline' unset' => ih unset'

theorem not_isSet_of_bufUnset (unset : pipeline.BufUnset) (calls : List PipelineCall) :
    ∀ reached ∈ (pipelineCalls setting pipeline calls).events, ¬ reached.IsSet := by
  intro reached member
  exact Reached.not_isSet ((pipelineCalls_unset unset calls).events reached member)

end Steps

section Runs

variable (setting : Setting) (minLevel : Member LogLevel) (timeFmt : Member (Option String))
  (entrypoint : Option ValuePtr) (strategy : FlowPartitionStrategy) (objects : Objects)
  (calls : List PipelineCall)

/-- The buffer of the logger comes to `lf_init_string` first. -/
theorem buf_reached (pipeline : LFPassPipeline) :
    ⟨{ pipeline.logger.buf with charQttInBlock := .stored loggerBufCharQttInBlock },
      pipeline.objects⟩ ∈ (pipelineCalls setting pipeline (.initPassPipeline :: calls)).events := by
  apply Recording.mem_bind
  apply Recording.mem_bind
  apply Recording.mem_bind
  apply Recording.mem_bind
  exact List.mem_singleton_self _

/-- What was in memory never matters: **no string is set** when it comes to
`lf_init_string`, and the buffer of the logger of the pipeline always comes there. -/
theorem strings_never_set :
    ¬ StringsSet setting
        (LFPassPipeline.declared setting minLevel timeFmt entrypoint strategy objects)
        (.initPassPipeline :: calls) ∧
    ∀ reached ∈ (pipelineCalls setting
        (LFPassPipeline.declared setting minLevel timeFmt entrypoint strategy objects)
        (.initPassPipeline :: calls)).events, ¬ reached.IsSet := by
  have unset : LFPassPipeline.BufUnset
      (LFPassPipeline.declared setting minLevel timeFmt entrypoint strategy objects) :=
    (setting.leftover 0).unset
  have never := @not_isSet_of_bufUnset setting _ unset (.initPassPipeline :: calls)
  refine ⟨?_, never⟩
  intro set
  have first := buf_reached setting calls
    (LFPassPipeline.declared setting minLevel timeFmt entrypoint strategy objects)
  exact never _ first (set _ first)

end Runs

/-! ## The calls of `main` -/

/-- The setting of a run on `+(4, 5)`, where this was in the memory of the strings. -/
def sumSetting (leftover : ℕ → RawString) : Setting where
  leftover := leftover
  values := sumValues
  rounds := 8
  passesMalloc := .bump (.raw 0)
  valsMalloc := .bump (.raw 0)
  newValsMalloc := .bump (.raw 0)
  flowsMalloc := .bump 0

/-- The pipeline of `main`, with these arenas. -/
def sumPipeline (leftover : ℕ → RawString) (arenas : ℕ → Option (Arena UInt8)) : LFPassPipeline :=
  .declared (sumSetting leftover) (.stored .debug) (.stored none) (some (.given 3)) .none
    ⟨arenas, fun _ => none⟩

/-- The passes `val_schedule` and `flow_partition`. -/
def sumCalls : List PipelineCall :=
  [.initPassPipeline,
    .pushPass [118, 97, 108, 95, 115, 99, 104, 101, 100, 117, 108, 101] .buildValSchedule,
    .pushPass [102, 108, 111, 119, 95, 112, 97, 114, 116, 105, 116, 105, 111, 110] .partitionFlows,
    .processPassPipeline]

/-- Over memory that happens to lead to four arenas, the run goes through, and four strings
come to `lf_init_string`. -/
example :
    let leftover : ℕ → RawString := fun n => ⟨n + 1, 0, 0⟩
    let arenas := fun a => if a ≤ 4 then some (Arena.declared (.bump (0 : UInt8)) 0 .left) else none
    let run := pipelineCalls (sumSetting leftover) (sumPipeline leftover arenas) sumCalls
    run.result.isSome = true ∧
      run.events.map (fun reached => reached.str.arena) =
        [.leftover 1, .leftover 2, .leftover 3, .leftover 4] := by
  decide +kernel

/-- Over memory that held zeros, the buffer of the logger has no arena. -/
theorem zero_memory_not_set :
    ¬ StringsSet (sumSetting fun _ => ⟨0, 0, 0⟩) (sumPipeline (fun _ => ⟨0, 0, 0⟩) fun _ => none)
      sumCalls := by
  intro set
  have reached := buf_reached (sumSetting fun _ => ⟨0, 0, 0⟩) sumCalls.tail
    (sumPipeline (fun _ => ⟨0, 0, 0⟩) fun _ => none)
  obtain ⟨⟨address, stored, -⟩, -⟩ := set _ reached
  cases stored

end LowFlow
