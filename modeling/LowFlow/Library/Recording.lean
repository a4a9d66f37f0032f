import Mathlib.Data.List.Basic

/-!
# Recording

A computation that can fail, and that records events on its way. What was recorded
before a failure is kept. `Meets` says what holds of the recorded events, and of the
result where there is one; `Gives` says that there is a result, and what holds of it.
Their rules follow the shape of the computation.
-/

set_option autoImplicit false

namespace LowFlow.Library

variable {ε α β : Type}

/-- The events that were recorded, and the result, if the computation did not fail. -/
structure Recording (ε α : Type) where
  events : List ε
  result : Option α

namespace Recording

instance : Monad (Recording ε) where
  pure a := ⟨[], some a⟩
  bind m f :=
    match m.result with
    | none => ⟨m.events, none⟩
    | some a => ⟨m.events ++ (f a).events, (f a).result⟩

/-- An event is recorded. -/
def record (e : ε) : Recording ε Unit := ⟨[e], some ()⟩

/-- A computation that records nothing. -/
def ofOption (o : Option α) : Recording ε α := ⟨[], o⟩

/-- All recorded events have the first property, and the result has the second one. -/
structure Meets (m : Recording ε α) (P : ε → Prop) (Q : α → Prop) : Prop where
  events : ∀ e ∈ m.events, P e
  result : ∀ a, m.result = some a → Q a

variable {P : ε → Prop} {Q : α → Prop} {m : Recording ε α}

theorem Meets.pure {a : α} (here : Q a) : Meets (Pure.pure a : Recording ε α) P Q := by
  constructor
  · intro e member
    cases member
  · rintro b same
    cases same
    exact here

theorem Meets.record {e : ε} (here : P e) : Meets (record e) P fun _ => True :=
  ⟨List.forall_mem_singleton.mpr here, fun _ _ => trivial⟩

theorem Meets.ofOption {o : Option α} (here : ∀ a, o = some a → Q a) :
    Meets (ofOption o : Recording ε α) P Q := by
  refine ⟨?_, here⟩
  intro e member
  cases member

/-- **The sequence rule.** -/
theorem Meets.bind {f : α → Recording ε β} {Q' : β → Prop} (first : m.Meets P Q)
    (rest : ∀ a, Q a → (f a).Meets P Q') : (m >>= f).Meets P Q' := by
  obtain ⟨events, result⟩ := m
  obtain ⟨recorded, ends⟩ := first
  cases result with
  | none => exact ⟨recorded, fun b same => by cases same⟩
  | some a =>
      obtain ⟨recorded', ends'⟩ := rest a (ends a rfl)
      exact ⟨List.forall_mem_append.mpr ⟨recorded, recorded'⟩, ends'⟩

/-- What was recorded stays recorded. -/
theorem mem_bind {f : α → Recording ε β} {e : ε} (member : e ∈ m.events) :
    e ∈ (m >>= f).events := by
  obtain ⟨events, result⟩ := m
  cases result with
  | none => exact member
  | some a => exact List.mem_append_left _ member

/-! ## Computations that do not fail -/

/-- After a computation that did not fail comes the next one. -/
theorem result_bind {f : α → Recording ε β} {a : α} (first : m.result = some a) :
    (m >>= f).result = (f a).result := by
  obtain ⟨events, result⟩ := m
  cases first
  rfl

/-- What records nothing and has a result can be left out. -/
theorem ofOption_bind {f : α → Recording ε β} {o : Option α} {a : α} (is_some : o = some a) :
    (ofOption o >>= f) = f a := by
  subst is_some
  rfl

/-- The computation does not fail, and the result has this property. -/
def Gives (m : Recording ε α) (Q : α → Prop) : Prop :=
  ∃ a, m.result = some a ∧ Q a

theorem Gives.pure {a : α} (here : Q a) : Gives (Pure.pure a : Recording ε α) Q :=
  ⟨a, rfl, here⟩

theorem Gives.record (e : ε) : Gives (record e) fun _ => True :=
  ⟨(), rfl, trivial⟩

theorem Gives.ofOption {o : Option α} {a : α} (is_some : o = some a) (here : Q a) :
    Gives (ofOption o : Recording ε α) Q :=
  ⟨a, is_some, here⟩

/-- **The sequence rule** for results. -/
theorem Gives.bind {f : α → Recording ε β} {Q' : β → Prop} (first : m.Gives Q)
    (rest : ∀ a, Q a → (f a).Gives Q') : (m >>= f).Gives Q' := by
  obtain ⟨a, done, here⟩ := first
  obtain ⟨b, ends, there⟩ := rest a here
  exact ⟨b, (result_bind done).trans ends, there⟩

end Recording

end LowFlow.Library
