import Mathlib.Data.Nat.Basic
import Mathlib.Logic.Relation

/-!
# Loops

A loop repeats a step until the step hands over a result. A step can also fail,
which fails the loop. `iterate` runs a loop for at most the given number of
steps. `Returns` says that some number of steps is enough, and the rules below
reason about it without mentioning the number. `Everywhere` is about the states
in between, whether the loop ends or not.
-/

set_option autoImplicit false

namespace LowFlow.Library

variable {σ τ : Type*}

/-- At most `fuel` steps of a loop: `none` when a step fails or the steps run out. -/
def iterate (step : σ → Option (σ ⊕ τ)) : ℕ → σ → Option τ
  | 0, _ => none
  | fuel + 1, s =>
      match step s with
      | none => none
      | some (.inl s') => iterate step fuel s'
      | some (.inr t) => some t

/-- The loop ends with this result. -/
def Returns (step : σ → Option (σ ⊕ τ)) (s : σ) (t : τ) : Prop :=
  ∃ fuel, iterate step fuel s = some t

variable {step : σ → Option (σ ⊕ τ)} {s s' : σ} {t t' : τ}

theorem iterate_next {fuel : ℕ} (next : step s = some (.inl s')) :
    iterate step (fuel + 1) s = iterate step fuel s' := by
  simp [iterate, next]

theorem iterate_done {fuel : ℕ} (done : step s = some (.inr t)) :
    iterate step (fuel + 1) s = some t := by
  simp [iterate, done]

theorem iterate_fails (stuck : step s = none) (fuel : ℕ) : iterate step fuel s = none := by
  cases fuel with
  | zero => rfl
  | succ fuel => simp [iterate, stuck]

/-- More steps than a loop needs change nothing. -/
theorem iterate_mono {fuel more : ℕ} (enough : iterate step fuel s = some t)
    (le : fuel ≤ more) : iterate step more s = some t := by
  induction fuel generalizing s more with
  | zero => simp [iterate] at enough
  | succ fuel ih =>
      obtain ⟨more, rfl⟩ : ∃ m, more = m + 1 := ⟨more - 1, by omega⟩
      cases next : step s with
      | none => simp [iterate, next] at enough
      | some outcome =>
          cases outcome with
          | inl s' =>
              rw [iterate_next next] at enough ⊢
              exact ih enough (by omega)
          | inr result =>
              rw [iterate_done next] at enough ⊢
              exact enough

/-- **The invariant rule.** -/
theorem iterate_invariant (Inv : σ → Prop) (Post : τ → Prop)
    (keeps : ∀ s s', Inv s → step s = some (.inl s') → Inv s')
    (done : ∀ s t, Inv s → step s = some (.inr t) → Post t) {fuel : ℕ} (start : Inv s)
    (ends : iterate step fuel s = some t) : Post t := by
  induction fuel generalizing s with
  | zero => cases ends
  | succ fuel ih =>
      cases move : step s with
      | none => simp [iterate, move] at ends
      | some outcome =>
          cases outcome with
          | inl s' =>
              rw [iterate_next move] at ends
              exact ih (keeps s s' start move) ends
          | inr result =>
              rw [iterate_done move, Option.some.injEq] at ends
              exact ends ▸ done s result start move

namespace Returns

theorem of_done (done : step s = some (.inr t)) : Returns step s t :=
  ⟨1, iterate_done done⟩

theorem of_next (next : step s = some (.inl s')) (rest : Returns step s' t) :
    Returns step s t := by
  obtain ⟨fuel, enough⟩ := rest
  exact ⟨fuel + 1, by rw [iterate_next next, enough]⟩

/-- A loop has one result. -/
theorem unique (first : Returns step s t) (second : Returns step s t') : t = t' := by
  obtain ⟨n, hn⟩ := first
  obtain ⟨m, hm⟩ := second
  have left := iterate_mono hn (Nat.le_max_left n m)
  have right := iterate_mono hm (Nat.le_max_right n m)
  exact Option.some.inj (left.symm.trans right)

/-- What a loop returns does not depend on whether its first step is taken. -/
theorem next_iff (next : step s = some (.inl s')) : Returns step s t ↔ Returns step s' t := by
  refine ⟨?_, of_next next⟩
  rintro ⟨fuel, enough⟩
  cases fuel with
  | zero => simp [iterate] at enough
  | succ fuel => exact ⟨fuel, by rwa [iterate_next next] at enough⟩

/-- A loop that fails does not return. -/
theorem not_of_fails (stuck : step s = none) : ¬ Returns step s t := by
  rintro ⟨fuel, enough⟩
  rw [iterate_fails stuck] at enough
  cases enough

/-- **The variant rule.** When every state of the invariant either finishes
well or steps to a smaller state of the invariant, the loop returns. -/
theorem of_variant (Inv : σ → Prop) (Post : τ → Prop) (measure : σ → ℕ)
    (progress : ∀ s, Inv s →
      (∃ t, step s = some (.inr t) ∧ Post t) ∨
        ∃ s', step s = some (.inl s') ∧ Inv s' ∧ measure s' < measure s)
    (start : Inv s) : ∃ t, Returns step s t ∧ Post t := by
  induction bound : measure s using Nat.strong_induction_on generalizing s with
  | _ n ih =>
      rcases progress s start with ⟨t, done, post⟩ | ⟨s', next, inv, smaller⟩
      · exact ⟨t, of_done done, post⟩
      · obtain ⟨t, rest, post⟩ := ih (measure s') (bound ▸ smaller) inv rfl
        exact ⟨t, of_next next rest, post⟩

/-- **The simulation rule.** A loop that matches another one step for step
returns when that one does, with a related result. -/
theorem of_simulation {σ' τ' : Type*} {model : σ' → Option (σ' ⊕ τ')} (R : σ → σ' → Prop)
    (Q : τ → τ' → Prop)
    (next : ∀ s a a', R s a → model a = some (.inl a') → ∃ s', step s = some (.inl s') ∧ R s' a')
    (done : ∀ s a r, R s a → model a = some (.inr r) → ∃ t, step s = some (.inr t) ∧ Q t r)
    {a : σ'} {r : τ'} (start : R s a) (returns : Returns model a r) :
    ∃ t, Returns step s t ∧ Q t r := by
  obtain ⟨fuel, enough⟩ := returns
  induction fuel generalizing s a with
  | zero => simp [iterate] at enough
  | succ fuel ih =>
      cases move : model a with
      | none => simp [iterate, move] at enough
      | some outcome =>
          cases outcome with
          | inl a' =>
              obtain ⟨s', step_s, related⟩ := next s a a' start move
              rw [iterate_next move] at enough
              obtain ⟨t, rest, post⟩ := ih related enough
              exact ⟨t, of_next step_s rest, post⟩
          | inr result =>
              rw [iterate_done move, Option.some.injEq] at enough
              subst enough
              obtain ⟨t, step_s, post⟩ := done s a result start move
              exact ⟨t, of_done step_s, post⟩

end Returns

/-- Two loops step alike: both fail, both go on, to related states, or both end. -/
inductive StepsAlike {σ' τ' : Type*} (R : σ → σ' → Prop) :
    Option (σ ⊕ τ) → Option (σ' ⊕ τ') → Prop where
  | fails : StepsAlike R none none
  | goesOn {s : σ} {a : σ'} (related : R s a) : StepsAlike R (some (.inl s)) (some (.inl a))
  | ends (t : τ) (r : τ') : StepsAlike R (some (.inr t)) (some (.inr r))

/-- **The bisimulation rule.** When loops step alike from related states, both return or
neither does. -/
theorem returns_iff_of_bisimulation {σ' τ' : Type*} {model : σ' → Option (σ' ⊕ τ')}
    (R : σ → σ' → Prop) (alike : ∀ s a, R s a → StepsAlike R (step s) (model a)) {a : σ'}
    (start : R s a) : (∃ t, Returns step s t) ↔ ∃ r, Returns model a r := by
  have each : ∀ fuel, (∃ t, iterate step fuel s = some t) ↔ ∃ r, iterate model fuel a = some r := by
    intro fuel
    induction fuel generalizing s a with
    | zero => simp [iterate]
    | succ fuel ih =>
        have here := alike s a start
        generalize move : step s = outcome at here
        generalize move' : model a = outcome' at here
        cases here with
        | fails => simp [iterate, move, move']
        | goesOn related =>
            rw [iterate_next move, iterate_next move']
            exact ih related
        | ends t r =>
            rw [iterate_done move, iterate_done move']
            exact ⟨fun _ => ⟨r, rfl⟩, fun _ => ⟨t, rfl⟩⟩
  constructor
  · rintro ⟨t, fuel, ends⟩
    obtain ⟨r, ends'⟩ := (each fuel).mp ⟨t, ends⟩
    exact ⟨r, fuel, ends'⟩
  · rintro ⟨r, fuel, ends⟩
    obtain ⟨t, ends'⟩ := (each fuel).mpr ⟨r, ends⟩
    exact ⟨t, fuel, ends'⟩

/-! ## The states of a loop -/

/-- The loop comes from the first state to the second. -/
abbrev Reaches (step : σ → Option (σ ⊕ τ)) : σ → σ → Prop :=
  Relation.ReflTransGen fun s s' => step s = some (.inl s')

/-- A loop that returns comes to the state in which it ends. -/
theorem Returns.reaches (returns : Returns step s t) :
    ∃ last, Reaches step s last ∧ step last = some (.inr t) := by
  obtain ⟨fuel, enough⟩ := returns
  induction fuel generalizing s with
  | zero => cases enough
  | succ fuel ih =>
      cases move : step s with
      | none => simp [iterate, move] at enough
      | some outcome =>
          cases outcome with
          | inl s' =>
              rw [iterate_next move] at enough
              obtain ⟨last, reached, done⟩ := ih enough
              exact ⟨last, .head move reached, done⟩
          | inr result =>
              rw [iterate_done move, Option.some.injEq] at enough
              exact ⟨s, .refl, enough ▸ move⟩

/-- The states that a loop passes in at most so many steps. -/
def states (step : σ → Option (σ ⊕ τ)) : ℕ → σ → List σ
  | 0, _ => []
  | fuel + 1, s =>
      s :: match step s with
        | some (.inl s') => states step fuel s'
        | _ => []

theorem states_next {fuel : ℕ} (next : step s = some (.inl s')) :
    states step (fuel + 1) s = s :: states step fuel s' := by
  simp [states, next]

theorem states_done {fuel : ℕ} (done : step s = some (.inr t)) :
    states step (fuel + 1) s = [s] := by
  simp [states, done]

/-- All states that the loop comes to have the property. -/
def Everywhere (step : σ → Option (σ ⊕ τ)) (P : σ → Prop) (s : σ) : Prop :=
  ∀ s', Reaches step s s' → P s'

variable {P : σ → Prop}

/-- A step splits the first state off. -/
theorem everywhere_next (next : step s = some (.inl s')) :
    Everywhere step P s ↔ P s ∧ Everywhere step P s' := by
  constructor
  · intro all
    exact ⟨all s .refl, fun t reached => all t (.head next reached)⟩
  · rintro ⟨here, others⟩ t reached
    rcases reached.cases_head with rfl | ⟨s₁, first, rest⟩
    · exact here
    · obtain rfl : s' = s₁ := Sum.inl.inj (Option.some.inj (next.symm.trans first))
      exact others t rest

/-- A loop that ends or fails comes to no other state. -/
theorem everywhere_last (last : ∀ s', step s ≠ some (.inl s')) :
    Everywhere step P s ↔ P s := by
  constructor
  · intro all
    exact all s .refl
  · intro here t reached
    rcases reached.cases_head with rfl | ⟨s₁, first, -⟩
    · exact here
    · exact absurd first (last s₁)

end LowFlow.Library
