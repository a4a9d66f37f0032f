import LowFlow.Memory.StackRuns

/-!
# Values in memory

A stack or a list is used with elements of one type. A value in memory is kept
as its pieces, so that reading a slot gives the value back exactly when all of
its pieces are there. Of the byte patterns of a value nothing else is used.
-/

set_option autoImplicit false

namespace LowFlow

open Library

/-- A byte of memory: one that belongs to no value, or a piece of a value. -/
inductive Cell (α : Type) where
  | raw (byte : UInt8)
  | piece (value : α) (index : ℕ)
deriving DecidableEq

variable {α : Type}

/-- The pieces of a value that takes this many bytes. -/
def pieces (size : ℕ) (value : α) : List (Cell α) :=
  (List.range size).map (Cell.piece value)

@[simp] theorem length_pieces (size : ℕ) (value : α) : (pieces size value).length = size := by
  simp [pieces]

/-- The value whose pieces these are. -/
def whole [DecidableEq α] : List (Cell α) → Option α
  | .piece value 0 :: rest =>
      if .piece value 0 :: rest = pieces (rest.length + 1) value then some value else none
  | _ => none

/-- What was stored is read back. -/
theorem whole_pieces [DecidableEq α] {size : ℕ} (positive : 0 < size) (value : α) :
    whole (pieces size value) = some value := by
  obtain ⟨size, rfl⟩ : ∃ n, size = n + 1 := ⟨size - 1, by omega⟩
  have shape : pieces (size + 1) value =
      .piece value 0 :: (List.range size).map fun i => Cell.piece value (i + 1) := by
    simp [pieces, List.range_succ_eq_map, Function.comp_def]
  rw [shape]
  simp [whole, shape]

/-- `*(T *)elem = value` for a new element. -/
def Stack.pushValue (stack : Stack (Cell α)) (size : ℕ) (value : α) :
    Option (Stack (Cell α)) := do
  let (_, stack) ← stack.push (pieces size value)
  some stack

/-- `*(T *)lf_pop_from_stack(stack)`. -/
def Stack.popValue [DecidableEq α] (stack : Stack (Cell α)) (size : ℕ) :
    Option (α × Stack (Cell α)) := do
  let (elem, stack) ← lfPopFromStack stack
  let bytes ← stack.arena.heap.load (← elem) size
  some (← whole bytes, stack)

/-- Popping a number of values. -/
def Stack.popValues [DecidableEq α] (size : ℕ) :
    ℕ → Stack (Cell α) → Option (List α × Stack (Cell α))
  | 0, stack => some ([], stack)
  | n + 1, stack => do
      let (value, stack) ← stack.popValue size
      let (values, stack) ← popValues size n stack
      some (value :: values, stack)

/-- The stack holds these values, top first. -/
def Stack.Contains (stack : Stack (Cell α)) (size : ℕ) (values : List α) : Prop :=
  stack.elemSize = size ∧ stack.elemCount = values.length ∧
    ∃ used live, stack.Holds used [] live ∧ live.map Prod.snd = values.map (pieces size)

/-- Popping the value on top. -/
theorem Stack.Holds.popValue [DecidableEq α] {stack : Stack (Cell α)} {used spare : Deck (Cell α)}
    {live : List (Element (Cell α))} {top : α} {values : List α}
    (holds : stack.Holds used spare live) (counted : stack.elemCount ≠ 0)
    (same : live.map Prod.snd = (top :: values).map (pieces stack.elemSize)) :
    ∃ ptr rest stack' used', live = (ptr, pieces stack.elemSize top) :: rest ∧
      rest.map Prod.snd = values.map (pieces stack.elemSize) ∧
      lfPopFromStack stack = some (some ptr, stack') ∧
      stack.popValue stack.elemSize = some (top, stack') ∧ stack'.Holds used' spare rest ∧
      stack.Keeps stack' ∧ stack'.elemCount = stack.elemCount - 1 := by
  obtain ⟨⟨ptr, bytes⟩, rest, rfl⟩ : ∃ e rest, live = e :: rest :=
    List.exists_cons_of_ne_nil (by rintro rfl; simp at same)
  simp only [List.map_cons, List.cons.injEq] at same
  obtain ⟨rfl, sameRest⟩ := same
  obtain ⟨stack', used', popped, holds', keeps, less, loaded⟩ := holds.pop counted
  rw [keeps.size] at loaded
  have value : stack.popValue stack.elemSize = some (top, stack') := by
    simp [Stack.popValue, popped, loaded, whole_pieces holds.positive]
  exact ⟨ptr, rest, stack', used', rfl, sameRest, popped, value, holds', keeps, less⟩

namespace Stack.Contains

variable {stack : Stack (Cell α)} {size : ℕ} {values : List α}

theorem push (contains : stack.Contains size values) (value : α) :
    ∃ stack', stack.pushValue size value = some stack' ∧ stack'.Contains size (value :: values) ∧
      stack.Keeps stack' := by
  obtain ⟨width, count, used, live, holds, same⟩ := contains
  obtain ⟨ptr, stack', used', pushed, holds', keeps, more, -⟩ :=
    holds.push ((length_pieces size value).trans width.symm)
  refine ⟨stack', by simp [pushValue, pushed], ⟨keeps.size.trans width, ?_, used', _, holds', ?_⟩,
    keeps⟩
  · rw [more, count, List.length_cons]
  · simp [same]

theorem pop [DecidableEq α] {top : α} (contains : stack.Contains size (top :: values)) :
    ∃ stack', stack.popValue size = some (top, stack') ∧ stack'.Contains size values ∧
      stack.Keeps stack' := by
  obtain ⟨rfl, count, used, live, holds, same⟩ := contains
  obtain ⟨ptr, rest, stack', used', -, sameRest, -, value, holds', keeps, less⟩ :=
    holds.popValue (by simp [count]) same
  refine ⟨stack', value, ⟨keeps.size, ?_, used', rest, holds', sameRest⟩, keeps⟩
  rw [less, count, List.length_cons, Nat.add_sub_cancel]

/-- Popping as many values as there are gives them all, top first. -/
theorem popValues [DecidableEq α] (contains : stack.Contains size values) :
    ∃ stack', Stack.popValues size values.length stack = some (values, stack') ∧
      stack'.Contains size [] ∧ stack.Keeps stack' := by
  induction values generalizing stack with
  | nil => exact ⟨stack, rfl, contains, .refl _⟩
  | cons top rest ih =>
      obtain ⟨stack₁, popped, contains₁, keeps₁⟩ := contains.pop
      obtain ⟨stack', others, contains', keeps⟩ := ih contains₁
      exact ⟨stack', by simp [Stack.popValues, popped, others], contains', keeps₁.trans keeps⟩

/-- A new stack contains nothing. -/
theorem init (stack : Stack (Cell α)) (width : stack.elemSize = size) (positive : 0 < size)
    (small : size < sizeModulus)
    (aligned : stack.elemAlignment ∣ size)
    (fits : size ≤ sizeWrap (stack.elemQttInBlock * size)) :
    ∃ start, lfInitStack stack = some start ∧ start.Contains size [] ∧
      start.elemQttInBlock = stack.elemQttInBlock := by
  subst width
  have some_in_block : 0 < stack.elemQttInBlock := Nat.pos_of_ne_zero fun zero => by
    simp [zero, sizeWrap] at fits
    omega
  obtain ⟨start, used, init, holds, -, qtt, size, -, count⟩ :=
    Holds.init positive some_in_block (paddedSize_of_dvd aligned positive small) fits
  exact ⟨start, init, ⟨size, count, used, [], holds, rfl⟩, qtt⟩

theorem isEmpty (contains : stack.Contains size values) :
    lfIsStackEmpty stack = values.isEmpty := by
  obtain ⟨-, count, -⟩ := contains
  cases values <;> simp [lfIsStackEmpty, count]

end Stack.Contains

/-! ## Stacks of pointers -/

/-- The size of a block of elements whose size divides the number of `size_t`
values is zero or has room for one. -/
theorem fits_of_dvd {qtt size : ℕ} (dvd : size ∣ sizeModulus)
    (nonzero : sizeWrap (qtt * size) ≠ 0) : size ≤ sizeWrap (qtt * size) := by
  refine Nat.le_of_dvd (Nat.pos_of_ne_zero nonzero) ?_
  exact (Nat.dvd_mod_iff dvd).mpr (Nat.dvd_mul_left ..)

/-- A stack of aligned elements is initialized only with room for one in a block. -/
theorem fits_of_init {β : Type} {stack start : Stack β} (init : lfInitStack stack = some start)
    (dvd : stack.elemSize ∣ sizeModulus) (small : stack.elemSize < sizeModulus)
    (aligned : stack.elemAlignment ∣ stack.elemSize) :
    stack.elemSize ≤ sizeWrap (stack.elemQttInBlock * stack.elemSize) := by
  obtain ⟨positive, -, padded, width, blocks⟩ := lfInitStack_accepts init
  obtain rfl : padded = stack.elemSize :=
    Option.some.inj (width.symm.trans (paddedSize_of_dvd aligned positive small))
  exact fits_of_dvd dvd (Nat.ne_of_gt blocks)

/-- What is left of the pushed pieces are the pieces of values. -/
theorem run_lifoStep_pieces {size : ℕ} {ops : List (StackOp (Cell α))}
    (legal : ∀ op ∈ ops, op = .pop ∨ ∃ v, op = .push (pieces size v))
    {answers : List (Option (List (Cell α)))} {elems : List (List (Cell α))}
    (runs : run lifoStep ops [] = some (answers, elems)) :
    ∃ values : List α, elems = values.map (pieces size) := by
  have keeps : ∀ op elems, (op = .pop ∨ ∃ v, op = .push (pieces size v)) →
      (∃ values : List α, elems = values.map (pieces size)) →
      ∃ answer elems', lifoStep op elems = some (answer, elems') ∧
        ∃ values : List α, elems' = values.map (pieces size) := by
    rintro op _ (rfl | ⟨v, rfl⟩) ⟨values, rfl⟩
    · cases values with
      | nil => exact ⟨none, [], rfl, [], rfl⟩
      | cons top rest => exact ⟨some (pieces size top), _, rfl, rest, rfl⟩
    · exact ⟨none, _, rfl, v :: values, rfl⟩
  obtain ⟨answers', elems', runs', values, same⟩ := run_keeps _ _ keeps legal ⟨[], rfl⟩
  obtain ⟨-, rfl⟩ := Prod.mk.inj (Option.some.inj (runs.symm.trans runs'))
  exact ⟨values, same⟩

/-- A stack that was used for values of one type contains values. -/
theorem Stack.contains_of_run {stack start : Stack (Cell α)} {size : ℕ}
    (init : lfInitStack stack = some start) (width : stack.elemSize = size)
    (dvd : size ∣ sizeModulus) (small : size < sizeModulus) (aligned : stack.elemAlignment ∣ size)
    {ops : List (StackOp (Cell α))}
    (legal : ∀ op ∈ ops, op = .pop ∨ ∃ v, op = .push (pieces size v))
    {answers : List (Option (List (Cell α)))} {t : Pushed (Cell α)}
    (runs : run stackStep ops ⟨start, []⟩ = some (answers, t)) :
    ∃ values, t.stack.Contains size values ∧
      t.stack.elemQttInBlock = stack.elemQttInBlock := by
  subst width
  have fits := fits_of_init init dvd small aligned
  have positive : 0 < stack.elemSize := (lfInitStack_accepts init).1
  obtain ⟨start', init', contains, qtt⟩ := Contains.init stack rfl positive small aligned fits
  obtain rfl : start = start' := Option.some.inj (init.symm.trans init')
  obtain ⟨size, count, used, live, holds, same⟩ := contains
  cases List.map_eq_nil_iff.mp same
  have legal' : ∀ op ∈ ops, op.Legal start.elemSize := by
    intro op member
    rcases legal op member with rfl | ⟨v, rfl⟩
    · trivial
    · simp [StackOp.Legal, size]
  obtain ⟨answers', t', used', runs', lifo, holds', counts, keeps⟩ :=
    Stack.Holds.runs (t := ⟨start, []⟩) holds count legal'
  obtain ⟨values, same⟩ := run_lifoStep_pieces legal lifo
  obtain ⟨-, rfl⟩ := Prod.mk.inj (Option.some.inj (runs.symm.trans runs'))
  refine ⟨values, ⟨keeps.size.trans size, ?_, used', _, holds', same⟩, keeps.qtt.trans qtt⟩
  rw [counts, ← List.length_map Prod.snd, same, List.length_map]

end LowFlow
