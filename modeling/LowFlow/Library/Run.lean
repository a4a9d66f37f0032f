import Mathlib.Data.List.Basic

/-!
# Runs

A run performs a list of operations one after the other and collects their
answers. It fails when one of them does. An invariant that every legal
operation can be performed under, and keeps, holds after every run
(`run_keeps`). A system that answers each operation as another one does
answers every run as the other one does (`run_agrees`). A property that an
operation keeps exactly when a condition is met holds throughout a run exactly
when every operation meets it (`throughout_iff`).
-/

set_option autoImplicit false

namespace LowFlow.Library

variable {ι σ σ' ω : Type*}

/-- The answers of a run and the state after it. -/
def run (step : ι → σ → Option (ω × σ)) : List ι → σ → Option (List ω × σ)
  | [], s => some ([], s)
  | op :: ops, s => do
      let (answer, s) ← step op s
      let (answers, s) ← run step ops s
      some (answer :: answers, s)

variable {step : ι → σ → Option (ω × σ)} {model : ι → σ' → Option (ω × σ')}

@[simp] theorem run_nil (s : σ) : run step [] s = some ([], s) := rfl

theorem run_cons {op : ι} {ops : List ι} {s s₁ s₂ : σ} {answer : ω} {answers : List ω}
    (first : step op s = some (answer, s₁)) (rest : run step ops s₁ = some (answers, s₂)) :
    run step (op :: ops) s = some (answer :: answers, s₂) := by
  simp [run, first, rest]

/-- A run of some operations is the first operation and a run of the others. -/
theorem run_cons_iff {op : ι} {ops : List ι} {s s₂ : σ} {answers : List ω} :
    run step (op :: ops) s = some (answers, s₂) ↔
      ∃ answer s₁ others, step op s = some (answer, s₁) ∧ run step ops s₁ = some (others, s₂) ∧
        answers = answer :: others := by
  constructor
  · intro runs
    simp only [run, Option.bind_eq_bind, Option.bind_eq_some_iff, Prod.exists,
      Option.some.injEq, Prod.mk.injEq] at runs
    obtain ⟨answer, t, taken, others, u, onward, rfl, rfl⟩ := runs
    exact ⟨answer, t, others, taken, onward, rfl⟩
  · rintro ⟨answer, s₁, others, taken, onward, rfl⟩
    exact run_cons taken onward

/-- A run can be stopped and continued. -/
theorem run_append_iff {ops more : List ι} {s s₂ : σ} {answers : List ω} :
    run step (ops ++ more) s = some (answers, s₂) ↔
      ∃ s₁ first others, run step ops s = some (first, s₁) ∧
        run step more s₁ = some (others, s₂) ∧ answers = first ++ others := by
  induction ops generalizing s answers with
  | nil => simp
  | cons op ops ih =>
      rw [List.cons_append, run_cons_iff]
      constructor
      · rintro ⟨answer, s₁, tail, taken, onward, rfl⟩
        obtain ⟨t, first, others, runs, rest, rfl⟩ := ih.mp onward
        exact ⟨t, answer :: first, others, run_cons taken runs, rest, rfl⟩
      · rintro ⟨t, first, others, runs, rest, rfl⟩
        obtain ⟨answer, s₁, first, taken, onward, rfl⟩ := run_cons_iff.mp runs
        exact ⟨answer, s₁, _, taken, ih.mpr ⟨t, first, others, onward, rest, rfl⟩, rfl⟩

/-- **The invariant rule.** -/
theorem run_keeps (Inv : σ → Prop) (Legal : ι → Prop)
    (keeps : ∀ op s, Legal op → Inv s → ∃ answer s', step op s = some (answer, s') ∧ Inv s')
    {ops : List ι} (legal : ∀ op ∈ ops, Legal op) {s : σ} (start : Inv s) :
    ∃ answers s', run step ops s = some (answers, s') ∧ Inv s' := by
  induction ops generalizing s with
  | nil => exact ⟨[], s, rfl, start⟩
  | cons op ops ih =>
      obtain ⟨answer, s₁, first, inv⟩ := keeps op s (legal op (List.mem_cons_self ..)) start
      obtain ⟨answers, s₂, rest, ends⟩ :=
        ih (fun other member => legal other (List.mem_cons_of_mem _ member)) inv
      exact ⟨answer :: answers, s₂, run_cons first rest, ends⟩

/-- The invariant rule for runs that are known to end. -/
theorem run_invariant (Inv : σ → Prop)
    (keeps : ∀ op s answer s', Inv s → step op s = some (answer, s') → Inv s')
    {ops : List ι} {s s' : σ} {answers : List ω} (start : Inv s)
    (runs : run step ops s = some (answers, s')) : Inv s' := by
  induction ops generalizing s answers with
  | nil =>
      cases runs
      exact start
  | cons op ops ih =>
      obtain ⟨answer, t, others, taken, onward, -⟩ := run_cons_iff.mp runs
      exact ih (keeps op s answer t start taken) onward

/-- What each operation answers under an invariant, a run answers. -/
theorem run_forall_answers (Inv : σ → Prop) (Q : ω → Prop)
    (keeps : ∀ op s answer s', Inv s → step op s = some (answer, s') → Q answer ∧ Inv s')
    {ops : List ι} {s s' : σ} {answers : List ω} (start : Inv s)
    (runs : run step ops s = some (answers, s')) : ∀ answer ∈ answers, Q answer := by
  induction ops generalizing s answers with
  | nil =>
      cases runs
      simp
  | cons op ops ih =>
      obtain ⟨answer, t, others, taken, onward, rfl⟩ := run_cons_iff.mp runs
      obtain ⟨here, inv⟩ := keeps op s answer t start taken
      exact List.forall_mem_cons.mpr ⟨here, ih inv onward⟩

/-- **The simulation rule.** -/
theorem run_agrees (R : σ → σ' → Prop) (Legal : ι → Prop)
    (agrees : ∀ op s t, Legal op → R s t →
      ∃ answer s' t', step op s = some (answer, s') ∧ model op t = some (answer, t') ∧ R s' t')
    {ops : List ι} (legal : ∀ op ∈ ops, Legal op) {s : σ} {t : σ'} (start : R s t) :
    ∃ answers s' t', run step ops s = some (answers, s') ∧
      run model ops t = some (answers, t') ∧ R s' t' := by
  induction ops generalizing s t with
  | nil => exact ⟨[], s, t, rfl, rfl, start⟩
  | cons op ops ih =>
      obtain ⟨answer, s₁, t₁, first, second, related⟩ :=
        agrees op s t (legal op (List.mem_cons_self ..)) start
      obtain ⟨answers, s₂, t₂, rest, others, ends⟩ :=
        ih (fun other member => legal other (List.mem_cons_of_mem _ member)) related
      exact ⟨answer :: answers, s₂, t₂, run_cons first rest, run_cons second others, ends⟩

/-- Two systems that answer each operation alike, or both fail, give the same
answers in every run. -/
theorem run_answers (R : σ → σ' → Prop)
    (agrees : ∀ op s t, R s t → (step op s = none ∧ model op t = none) ∨
      ∃ answer s' t', step op s = some (answer, s') ∧ model op t = some (answer, t') ∧ R s' t')
    (ops : List ι) {s : σ} {t : σ'} (start : R s t) :
    (run step ops s).map Prod.fst = (run model ops t).map Prod.fst := by
  induction ops generalizing s t with
  | nil => rfl
  | cons op ops ih =>
      rcases agrees op s t start with ⟨fails, fails'⟩ | ⟨answer, s', t', first, second, related⟩
      · simp [run, fails, fails']
      · have rest := ih related
        cases one : run step ops s' <;> cases two : run model ops t' <;> rw [one, two] at rest <;>
          simp_all [run]

/-! ## All along a run -/

/-- The property holds in every state that the run passes. -/
def Throughout (step : ι → σ → Option (ω × σ)) (P : σ → Prop) : List ι → σ → Prop
  | [], s => P s
  | op :: ops, s => P s ∧ ∀ answer s', step op s = some (answer, s') → Throughout step P ops s'

/-- Every operation of the run meets the condition in the state it is performed in. -/
def EachStep (step : ι → σ → Option (ω × σ)) (C : ι → σ → Prop) : List ι → σ → Prop
  | [], _ => True
  | op :: ops, s => C op s ∧ ∀ answer s', step op s = some (answer, s') → EachStep step C ops s'

/-- **The invariant rule for runs whose operations meet a condition.** -/
theorem EachStep.throughout {Inv : σ → Prop} {C : ι → σ → Prop}
    (keeps : ∀ op s answer s', Inv s → C op s → step op s = some (answer, s') → Inv s')
    {ops : List ι} {s : σ} (start : Inv s) (each : EachStep step C ops s) :
    Throughout step Inv ops s := by
  induction ops generalizing s with
  | nil => exact start
  | cons op ops ih =>
      refine ⟨start, ?_⟩
      intro answer s' taken
      exact ih (keeps op s answer s' start each.1 taken) (each.2 answer s' taken)

theorem Throughout.mono {P Q : σ → Prop} (imp : ∀ s, P s → Q s) {ops : List ι} {s : σ}
    (throughout : Throughout step P ops s) : Throughout step Q ops s := by
  induction ops generalizing s with
  | nil => exact imp s throughout
  | cons op ops ih =>
      exact ⟨imp s throughout.1, fun answer s' taken => ih (throughout.2 answer s' taken)⟩

/-- What follows from the condition in states of the invariant. -/
theorem EachStep.mono {Inv : σ → Prop} {C D : ι → σ → Prop}
    (imp : ∀ op s, Inv s → C op s → D op s) {ops : List ι} {s : σ}
    (throughout : Throughout step Inv ops s) (each : EachStep step C ops s) :
    EachStep step D ops s := by
  induction ops generalizing s with
  | nil => trivial
  | cons op ops ih =>
      refine ⟨imp op s throughout.1 each.1, ?_⟩
      intro answer s' taken
      exact ih (throughout.2 answer s' taken) (each.2 answer s' taken)

/-- A property that follows from an invariant, and that an operation breaks when
it does not meet the condition, holds throughout a run exactly when every
operation meets it. -/
theorem throughout_iff {Inv P : σ → Prop} {C : ι → σ → Prop} (holds : ∀ s, Inv s → P s)
    (keeps : ∀ op s answer s', Inv s → C op s → step op s = some (answer, s') → Inv s')
    (breaks : ∀ op s answer s', Inv s → ¬ C op s → step op s = some (answer, s') → ¬ P s')
    {ops : List ι} {s s' : σ} {answers : List ω} (start : Inv s)
    (runs : run step ops s = some (answers, s')) :
    Throughout step P ops s ↔ EachStep step C ops s := by
  constructor
  · intro throughout
    induction ops generalizing s answers with
    | nil => trivial
    | cons op ops ih =>
        obtain ⟨answer, t, others, taken, onward, -⟩ := run_cons_iff.mp runs
        have there := throughout.2 answer t taken
        have met : C op s := by
          by_contra unmet
          refine breaks op s answer t start unmet taken ?_
          cases ops with
          | nil => exact there
          | cons => exact there.1
        refine ⟨met, ?_⟩
        intro answer' t' taken'
        obtain ⟨-, rfl⟩ := Prod.mk.inj (Option.some.inj (taken.symm.trans taken'))
        exact ih (keeps op s answer t start met taken) onward there
  · exact fun each => (each.throughout keeps start).mono holds

end LowFlow.Library
