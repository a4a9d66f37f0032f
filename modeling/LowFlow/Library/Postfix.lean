import LowFlow.Library.Rose

/-!
# Reading a tree back from its post-order

When a label says how many children its node has, a post-order is read with a
stack of trees: each label takes that many trees from the stack and puts the tree
it makes of them there (`rebuild`). It reads back the tree (`rebuild_postorder`),
so that ranked trees are known from their post-order (`eq_of_postorderAll`).
-/

set_option autoImplicit false

namespace LowFlow.Library

namespace Rose

variable {α β : Type*}

mutual

/-- Every node has as many children as its label says. -/
def Ranked (arity : α → ℕ) : Rose α → Prop
  | .node a kids => arity a = kids.length ∧ RankedAll arity kids

def RankedAll (arity : α → ℕ) : List (Rose α) → Prop
  | [] => True
  | t :: ts => Ranked arity t ∧ RankedAll arity ts

end

mutual

/-- The tree with its labels changed. -/
def map (f : α → β) : Rose α → Rose β
  | .node a kids => .node (f a) (mapAll f kids)

def mapAll (f : α → β) : List (Rose α) → List (Rose β)
  | [] => []
  | t :: ts => map f t :: mapAll f ts

end

theorem length_mapAll (f : α → β) (ts : List (Rose α)) : (mapAll f ts).length = ts.length := by
  induction ts with
  | nil => rfl
  | cons t ts ih => simp [mapAll, ih]

mutual

theorem postorder_map (f : α → β) : ∀ t : Rose α, (t.map f).postorder = t.postorder.map f
  | .node a kids => by simp [map, postorder, postorderAll_mapAll f kids]

theorem postorderAll_mapAll (f : α → β) :
    ∀ ts : List (Rose α), postorderAll (mapAll f ts) = (postorderAll ts).map f
  | [] => rfl
  | t :: ts => by simp [mapAll, postorderAll, postorder_map f t, postorderAll_mapAll f ts]

end

/-- Reading labels, with the trees that were read before, last one first. -/
def rebuild (arity : α → ℕ) : List α → List (Rose α) → Option (List (Rose α))
  | [], read => some read
  | a :: rest, read =>
      if arity a ≤ read.length then
        rebuild arity rest (.node a (read.take (arity a)).reverse :: read.drop (arity a))
      else none

mutual

/-- **Reading the post-order** of a tree puts the tree on the stack. -/
theorem rebuild_postorder {arity : α → ℕ} (rest : List α) (read : List (Rose α)) :
    ∀ {t : Rose α}, t.Ranked arity →
      rebuild arity (t.postorder ++ rest) read = rebuild arity rest (t :: read)
  | .node a kids, ⟨rank, ranked⟩ => by
      have before := rebuild_postorderAll (a :: rest) read ranked
      rw [postorder, List.append_assoc, List.singleton_append, before]
      have length : arity a = kids.reverse.length := rank.trans List.length_reverse.symm
      have enough : arity a ≤ (kids.reverse ++ read).length := by
        rw [List.length_append, length]
        exact Nat.le_add_right ..
      rw [rebuild, if_pos enough, length, List.take_left, List.drop_left, List.reverse_reverse]

theorem rebuild_postorderAll {arity : α → ℕ} (rest : List α) (read : List (Rose α)) :
    ∀ {ts : List (Rose α)}, RankedAll arity ts →
      rebuild arity (postorderAll ts ++ rest) read = rebuild arity rest (ts.reverse ++ read)
  | [], _ => rfl
  | t :: ts, ⟨first, others⟩ => by
      rw [postorderAll, List.append_assoc, rebuild_postorder _ read first,
        rebuild_postorderAll rest (t :: read) others, List.reverse_cons, List.append_assoc]
      rfl

end

/-- **Ranked trees are known from their post-order**, one after the other. -/
theorem eq_of_postorderAll {arity : α → ℕ} {one two : List (Rose α)}
    (rankedOne : RankedAll arity one) (rankedTwo : RankedAll arity two)
    (same : postorderAll one = postorderAll two) : one = two := by
  have readOne := rebuild_postorderAll [] [] rankedOne
  have readTwo := rebuild_postorderAll [] [] rankedTwo
  rw [same, readTwo] at readOne
  simpa [rebuild] using readOne.symm

theorem rankedAll_replicate {arity : α → ℕ} {t : Rose α} {n : ℕ}
    (ranked : n ≠ 0 → t.Ranked arity) : RankedAll arity (List.replicate n t) := by
  induction n with
  | zero => trivial
  | succ n ih => exact ⟨ranked (Nat.succ_ne_zero n), ih fun _ => ranked (Nat.succ_ne_zero n)⟩

/-- The post-order of a tree, a number of times. -/
theorem postorderAll_replicate (f : α → β) (t : Rose α) (n : ℕ) :
    postorderAll (List.replicate n (t.map f)) =
      (List.replicate n t.postorder).flatten.map f := by
  induction n with
  | zero => rfl
  | succ n ih => simp [List.replicate_succ, postorderAll, postorder_map, ih]

end Rose

end LowFlow.Library
