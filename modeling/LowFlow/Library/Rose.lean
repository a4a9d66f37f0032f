import LowFlow.Library.Loop

/-!
# Visiting a tree with a work list

A tree can be visited with a list of the subtrees still to visit: take the
first one, put its label in front of the output, and put its children, last one
first, in front of the work. The output is then the post-order of the tree
(`visit_returns`).
-/

set_option autoImplicit false

namespace LowFlow.Library

/-- Finite trees with labelled nodes and any number of children. -/
inductive Rose (α : Type*) where
  | node (label : α) (kids : List (Rose α))

namespace Rose

variable {α : Type*}

/-- The label at the root. -/
def label : Rose α → α
  | .node a _ => a

mutual

/-- Every node after all of its children, children in order. -/
def postorder : Rose α → List α
  | .node a kids => postorderAll kids ++ [a]

def postorderAll : List (Rose α) → List α
  | [] => []
  | t :: ts => postorder t ++ postorderAll ts

end

mutual

/-- The number of nodes. -/
def nodes : Rose α → ℕ
  | .node _ kids => nodesAll kids + 1

def nodesAll : List (Rose α) → ℕ
  | [] => 0
  | t :: ts => nodes t + nodesAll ts

end

theorem postorderAll_append (ts us : List (Rose α)) :
    postorderAll (ts ++ us) = postorderAll ts ++ postorderAll us := by
  induction ts with
  | nil => rfl
  | cons t ts ih => simp [postorderAll, ih]

theorem nodesAll_append (ts us : List (Rose α)) :
    nodesAll (ts ++ us) = nodesAll ts + nodesAll us := by
  induction ts with
  | nil => simp [nodesAll]
  | cons t ts ih => simp [nodesAll, ih, Nat.add_assoc]

theorem nodesAll_reverse (ts : List (Rose α)) : nodesAll ts.reverse = nodesAll ts := by
  induction ts with
  | nil => rfl
  | cons t ts ih => simp [nodesAll, nodesAll_append, ih, Nat.add_comm]

mutual

theorem length_postorder : ∀ t : Rose α, t.postorder.length = t.nodes
  | .node _ kids => by simp [postorder, nodes, length_postorderAll kids]

theorem length_postorderAll : ∀ ts : List (Rose α), (postorderAll ts).length = nodesAll ts
  | [] => rfl
  | t :: ts => by simp [postorderAll, nodesAll, length_postorder t, length_postorderAll ts]

end

/-- One visit: the first tree of the work leaves its label and its children. -/
def visitStep : List (Rose α) × List α → Option ((List (Rose α) × List α) ⊕ List α)
  | ([], out) => some (.inr out)
  | (.node a kids :: work, out) => some (.inl (kids.reverse ++ work, a :: out))

/-- **Visiting ends with the post-order.** -/
theorem visit_returns (work : List (Rose α)) (out : List α) :
    Returns visitStep (work, out) (postorderAll work.reverse ++ out) := by
  have ends : ∃ t, Returns visitStep (work, out) t ∧ t = postorderAll work.reverse ++ out := by
    refine Returns.of_variant
      (fun s => postorderAll s.1.reverse ++ s.2 = postorderAll work.reverse ++ out)
      (fun t => t = postorderAll work.reverse ++ out) (fun s => nodesAll s.1) ?_ rfl
    intro ⟨pending, output⟩ inv
    cases pending with
    | nil => exact .inl ⟨output, rfl, by simpa [postorderAll] using inv⟩
    | cons t rest =>
        obtain ⟨a, kids⟩ := t
        refine .inr ⟨_, rfl, ?_, ?_⟩
        · simpa [postorderAll_append, postorderAll, postorder] using inv
        · simp [nodesAll_append, nodesAll_reverse, nodesAll, nodes]
  obtain ⟨t, returns, rfl⟩ := ends
  exact returns

end Rose

end LowFlow.Library
