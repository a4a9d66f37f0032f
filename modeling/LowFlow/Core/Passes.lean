import LowFlow.Library.Loop
import LowFlow.Memory.ListValues

/-!
# The pass pipeline

`core/passes.c`. A pipeline keeps its passes in a list and applies them in the
order of the list, looking up the next pass after each one. A pass can push
further passes while the list is walked. The pipeline works off its passes as a
queue does (`process_applies`).
-/

set_option autoImplicit false

namespace LowFlow

open Library

/-- `LF_Pass`. The name stands for the string that is initialized from it. -/
structure Pass (φ : Type) where
  name : List UInt8
  applyFn : φ
deriving DecidableEq

/-- `sizeof(LF_Pass)`: a string and a function pointer. -/
def passSize : ℕ := 32

def passPipelinePassQtt : ℕ := 4

/-- `LF_PassPipeline`: its passes, and the other members, on which the passes work. -/
structure Pipeline (φ σ : Type) where
  passes : LFList (Cell (Pass φ))
  others : σ

variable {φ σ : Type}

def lfInitPassPipeline (malloc : Allocator (Cell (Pass φ))) (others : σ) :
    Option (Pipeline φ σ) := do
  let passes ← lfInitList (LFList.declared malloc passPipelinePassQtt passSize 8)
  some ⟨passes, others⟩

def lfPushPass (pipeline : Pipeline φ σ) (name : List UInt8) (applyFn : φ) :
    Option (Ptr × Pipeline φ σ) := do
  let (pass, passes) ← lfAllocListElem pipeline.passes
  let passes ← passes.write passSize pass ⟨name, applyFn⟩
  some (pass, { pipeline with passes })

/-- Pushing passes one after the other, with where they are. -/
def pushPasses : Pipeline φ σ → List (Pass φ) → Option (List (Ptr × Pass φ) × Pipeline φ σ)
  | pipeline, [] => some ([], pipeline)
  | pipeline, pass :: passes => do
      let (ptr, pipeline) ← lfPushPass pipeline pass.name pass.applyFn
      let (pushed, pipeline) ← pushPasses pipeline passes
      some ((ptr, pass) :: pushed, pipeline)

/-- What a pass function does: it changes the other members of the pipeline and
pushes passes. -/
abbrev Effect (φ σ : Type) := φ → σ → σ × List (Pass φ)

/-- The loop of `lf_process_pass_pipeline`. The passes that were applied and those that
were pushed are noted in order. -/
structure Processing (φ σ : Type) where
  curPass : Option Ptr
  pipeline : Pipeline φ σ
  applied : List (Ptr × Pass φ)
  pushed : List (Ptr × Pass φ)

def processPass [DecidableEq φ] (effect : Effect φ σ) (s : Processing φ σ) :
    Option (Processing φ σ ⊕ Processing φ σ) := do
  match s.curPass with
  | none => some (.inr s)
  | some curPass =>
      let pass ← s.pipeline.passes.read passSize curPass
      let (others, more) := effect pass.applyFn s.pipeline.others
      let (pushed, pipeline) ← pushPasses { s.pipeline with others } more
      let (next, passes) ← lfGetNextListElem pipeline.passes curPass
      some (.inl
        { curPass := next
          pipeline := { pipeline with passes }
          applied := s.applied ++ [(curPass, pass)]
          pushed := s.pushed ++ pushed })

/-- `lf_process_pass_pipeline` ends in this state, when these passes were pushed before. -/
def Pipeline.Processes [DecidableEq φ] (pipeline : Pipeline φ σ) (effect : Effect φ σ)
    (pushed : List (Ptr × Pass φ)) (result : Processing φ σ) : Prop :=
  ∃ curPass passes, lfGetFirstListElem pipeline.passes = some (curPass, passes) ∧
    Returns (processPass effect) ⟨curPass, { pipeline with passes }, [], pushed⟩ result

/-! ## A queue that is worked off -/

/-- Working off a queue of passes: the first one is applied, and what it pushes comes
behind the others. The passes are applied in this order, and the queue gets empty. -/
inductive Drains (effect : Effect φ σ) : List (Pass φ) → σ → List (Pass φ) → σ → Prop where
  | empty (others : σ) : Drains effect [] others [] others
  | apply {pass : Pass φ} {pending more applied : List (Pass φ)} {others others' last : σ}
      (step : effect pass.applyFn others = (others', more))
      (rest : Drains effect (pending ++ more) others' applied last) :
      Drains effect (pass :: pending) others (pass :: applied) last

/-! ## The pipeline -/

/-- The passes of the pipeline, where they are, in the order in which they were pushed. -/
def Pipeline.Queued (pipeline : Pipeline φ σ) (elems : List (Ptr × Pass φ)) : Prop :=
  pipeline.passes.Queue passSize elems

namespace Pipeline.Queued

variable {pipeline : Pipeline φ σ} {elems : List (Ptr × Pass φ)}

theorem of_init (malloc : Allocator (Cell (Pass φ))) (others : σ) :
    ∃ pipeline, lfInitPassPipeline malloc others = some pipeline ∧ pipeline.others = others ∧
      pipeline.Queued [] := by
  obtain ⟨passes, init, queue⟩ := @LFList.Queue.of_init _ malloc passPipelinePassQtt passSize 8
    (by decide) (by decide) (by decide) (by decide) (by decide)
  exact ⟨⟨passes, others⟩, by simp [lfInitPassPipeline, init], rfl, queue⟩

/-- Pushing a pass puts it behind the others. -/
theorem push (queued : pipeline.Queued elems) (pass : Pass φ) :
    ∃ ptr pipeline', lfPushPass pipeline pass.name pass.applyFn = some (ptr, pipeline') ∧
      pipeline'.others = pipeline.others ∧ pipeline'.Queued (elems ++ [(ptr, pass)]) := by
  obtain ⟨ptr, list₁, passes, alloc, written, queue⟩ := LFList.Queue.push queued pass
  exact ⟨ptr, { pipeline with passes }, by simp [lfPushPass, alloc, written], rfl, queue⟩

theorem pushAll (queued : pipeline.Queued elems) (passes : List (Pass φ)) :
    ∃ pushed pipeline', pushPasses pipeline passes = some (pushed, pipeline') ∧
      pushed.map Prod.snd = passes ∧ pipeline'.others = pipeline.others ∧
      pipeline'.Queued (elems ++ pushed) := by
  induction passes generalizing pipeline elems with
  | nil => exact ⟨[], pipeline, rfl, rfl, rfl, by simpa using queued⟩
  | cons pass passes ih =>
      obtain ⟨ptr, pipeline₁, first, same, queued₁⟩ := queued.push pass
      obtain ⟨pushed, pipeline', rest, passes', same', queued'⟩ := ih queued₁
      refine ⟨(ptr, pass) :: pushed, pipeline', by simp [pushPasses, first, rest], ?_,
        same'.trans same, ?_⟩
      · rw [List.map_cons, passes']
      · rwa [List.append_assoc] at queued'

end Pipeline.Queued

/-- **Working off the passes.** With some passes applied and some pending, the
loop applies the pending ones, and those they push, in the order of the queue. -/
theorem processPass_drains [DecidableEq φ] {effect : Effect φ σ} {pending trace : List (Pass φ)}
    {others last : σ} (drains : Drains effect pending others trace last)
    {pipeline : Pipeline φ σ} {applied waiting : List (Ptr × Pass φ)}
    (queued : pipeline.Queued (applied ++ waiting)) (state : pipeline.others = others)
    (queue : waiting.map Prod.snd = pending) :
    ∃ result, Returns (processPass effect)
        ⟨waiting.head?.map Prod.fst, pipeline, applied, applied ++ waiting⟩ result ∧
      result.applied = result.pushed ∧ result.applied.map Prod.snd = applied.map Prod.snd ++ trace ∧
      result.pipeline.others = last ∧ result.pipeline.Queued result.pushed := by
  induction drains generalizing pipeline applied waiting with
  | empty others =>
      obtain rfl : waiting = [] := List.map_eq_nil_iff.mp queue
      refine ⟨⟨none, pipeline, applied, applied ++ []⟩, .of_done rfl, ?_, ?_, state, queued⟩
      · simp
      · simp
  | @apply pass pending more trace others others' last step rest ih =>
      obtain ⟨⟨ptr, pass'⟩, waiting, rfl, rfl, rfl⟩ := List.map_eq_cons_iff.mp queue
      have known : (ptr, pass') ∈ applied ++ (ptr, pass') :: waiting := by simp
      have loaded := queued.values.read known
      have queued₁ : Pipeline.Queued { pipeline with others := others' }
          (applied ++ (ptr, pass') :: waiting) := queued
      obtain ⟨pushed, pipeline₂, pushes, same, state₂, queued₂⟩ := queued₁.pushAll more
      -- the lookup goes on in the list as the pass left it
      have found : ∃ passes,
          lfGetNextListElem pipeline₂.passes ptr =
            some ((waiting ++ pushed).head?.map Prod.fst, passes) ∧
          passes.Queue passSize ((applied ++ [(ptr, pass')]) ++ (waiting ++ pushed)) := by
        have queue₂ : pipeline₂.passes.Queue passSize
            (applied ++ (ptr, pass') :: (waiting ++ pushed)) := by
          simpa [Pipeline.Queued] using queued₂
        cases later : waiting ++ pushed with
        | nil =>
            rw [later] at queue₂
            obtain ⟨passes, next, queue₃⟩ := queue₂.next_last
            exact ⟨passes, next, by simpa using queue₃⟩
        | cons e' later =>
            rw [later] at queue₂
            obtain ⟨passes, next, queue₃⟩ := queue₂.next
            exact ⟨passes, next, by simpa using queue₃⟩
      obtain ⟨passes, next, queue₃⟩ := found
      obtain ⟨result, returns, all, order, last, queued'⟩ :=
        @ih { pipeline₂ with passes } (applied ++ [(ptr, pass')]) (waiting ++ pushed) queue₃ state₂
          (by rw [List.map_append, same])
      refine ⟨result, .of_next ?_ returns, all, by simpa using order, last, queued'⟩
      simp [processPass, loaded, state, step, pushes, next]

/-- **A pipeline applies every pass once, in the order of the pushes, and stops.** -/
theorem process_applies [DecidableEq φ] (effect : Effect φ σ) (malloc : Allocator (Cell (Pass φ)))
    {others last : σ} {passes trace : List (Pass φ)}
    (finite : Drains effect passes others trace last) :
    ∃ start pushed pipeline result, lfInitPassPipeline malloc others = some start ∧
      pushPasses start passes = some (pushed, pipeline) ∧
      pipeline.Processes effect pushed result ∧ result.applied = result.pushed ∧
      (result.pushed.map Prod.fst).Nodup ∧ result.pushed.map Prod.snd = trace ∧
      result.pipeline.others = last := by
  obtain ⟨start, init, state, empty⟩ := Pipeline.Queued.of_init malloc others
  obtain ⟨pushed, pipeline, pushes, same, state', queued⟩ := empty.pushAll passes
  rw [List.nil_append] at queued
  have first : ∃ list, lfGetFirstListElem pipeline.passes =
      some (pushed.head?.map Prod.fst, list) ∧ list.Queue passSize pushed := by
    cases pushed with
    | nil => exact ⟨pipeline.passes, LFList.Queue.nothing queued, queued⟩
    | cons e back => exact LFList.Queue.first queued
  obtain ⟨list, found, queue⟩ := first
  obtain ⟨result, returns, all, order, ends, queued'⟩ :=
    @processPass_drains _ _ _ _ _ _ _ _ finite { pipeline with passes := list } [] pushed queue
      (state'.trans state) same
  refine ⟨start, pushed, pipeline, result, init, pushes, ⟨_, list, found, returns⟩, all,
    LFList.Queue.nodup queued', ?_, ends⟩
  rw [← all, order]
  rfl

/-- Two passes, the first of which pushes a third one. -/
theorem process_applies_three : ∃ (start pipeline : Pipeline Bool ℕ)
    (pushed : List (Ptr × Pass Bool)) (result : Processing Bool ℕ),
    lfInitPassPipeline (Allocator.bump (.raw 0)) 0 = some start ∧
      pushPasses start [⟨[97], true⟩, ⟨[98], false⟩] = some (pushed, pipeline) ∧
      pipeline.Processes (fun more n => (n + 1, if more then [⟨[99], false⟩] else [])) pushed
        result ∧
      result.applied = result.pushed ∧
      result.pushed.map Prod.snd = [⟨[97], true⟩, ⟨[98], false⟩, ⟨[99], false⟩] ∧
      result.pipeline.others = 3 := by
  obtain ⟨start, pushed, pipeline, result, init, pushes, returns, all, -, order, ends⟩ :=
    @process_applies Bool ℕ _ (fun more n => (n + 1, if more then [⟨[99], false⟩] else []))
      (Allocator.bump (.raw 0)) 0 3 [⟨[97], true⟩, ⟨[98], false⟩]
      [⟨[97], true⟩, ⟨[98], false⟩, ⟨[99], false⟩] (.apply rfl (.apply rfl (.apply rfl (.empty 3))))
  exact ⟨start, pipeline, pushed, result, init, pushes, returns, all, order, ends⟩

end LowFlow
