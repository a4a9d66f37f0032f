import LowFlow.Library.Rose

/-!
# Visiting what a label unfolds to

The work list of a visit can hold labels, when the children of a label are looked up as
it is visited. A label may come up again, and every time it does it is visited again. The
visit of a label ends exactly when the label unfolds to a finite tree
(`unfold_returns_iff`). That is when children are found for all labels below it, and no
chain of children goes on forever (`exists_unfolds_iff`).
-/

set_option autoImplicit false

namespace LowFlow.Library

variable {α : Type*}

/-- One visit: the first label of the work is put out and leaves its children. -/
def unfoldStep (kids : α → Option (List α)) :
    List α × List α → Option ((List α × List α) ⊕ List α)
  | ([], out) => some (.inr out)
  | (a :: work, out) => (kids a).map fun found => .inl (found.reverse ++ work, a :: out)

/-- The children of each label in the tree are those that are found for it. -/
inductive Unfolds (kids : α → Option (List α)) : Rose α → Prop where
  | node {a : α} {trees : List (Rose α)} (found : kids a = some (trees.map Rose.label))
      (each : ∀ t ∈ trees, Unfolds kids t) : Unfolds kids (.node a trees)

/-- The first label is found among the children of the second. -/
def IsKid (kids : α → Option (List α)) (b a : α) : Prop :=
  ∃ found, kids a = some found ∧ b ∈ found

/-- The second label is at or below the first. -/
abbrev Below (kids : α → Option (List α)) : α → α → Prop :=
  Relation.ReflTransGen fun a b => IsKid kids b a

variable {kids : α → Option (List α)} {a : α} {work out : List α}

/-- Trees for some labels, one after the other. -/
theorem exists_trees {P : Rose α → Prop} (each : ∀ a ∈ work, ∃ t : Rose α, t.label = a ∧ P t) :
    ∃ trees : List (Rose α), trees.map Rose.label = work ∧ ∀ t ∈ trees, P t := by
  induction work with
  | nil => exact ⟨[], rfl, List.forall_mem_nil _⟩
  | cons a work ih =>
      obtain ⟨⟨t, rfl, holds⟩, others⟩ := List.forall_mem_cons.mp each
      obtain ⟨trees, rfl, rest⟩ := ih others
      exact ⟨t :: trees, rfl, List.forall_mem_cons.mpr ⟨holds, rest⟩⟩

/-- No chain of children goes on forever from the root of a finite tree. -/
theorem Unfolds.acc {t : Rose α} (unfolds : Unfolds kids t) : Acc (IsKid kids) t.label := by
  induction unfolds with
  | @node a trees found each ih =>
      refine Acc.intro _ ?_
      intro b isKid
      obtain ⟨found', same, member⟩ := isKid
      obtain rfl := Option.some.inj (found.symm.trans same)
      obtain ⟨t, inTrees, rfl⟩ := List.mem_map.mp member
      exact ih t inTrees

/-- Children are found for all labels of a tree. -/
theorem Unfolds.found {t : Rose α} (unfolds : Unfolds kids t) {b : α}
    (below : Below kids t.label b) : (kids b).isSome := by
  induction unfolds with
  | @node a trees found each ih =>
      rcases below.cases_head with rfl | ⟨c, isKid, onward⟩
      · exact Option.isSome_iff_exists.mpr ⟨_, found⟩
      · obtain ⟨found', same, member⟩ := isKid
        obtain rfl := Option.some.inj (found.symm.trans same)
        obtain ⟨t, inTrees, rfl⟩ := List.mem_map.mp member
        exact ih t inTrees onward

/-- **The labels that unfold** to finite trees. -/
theorem exists_unfolds_iff : (∃ t : Rose α, t.label = a ∧ Unfolds kids t) ↔
    Acc (IsKid kids) a ∧ ∀ b, Below kids a b → (kids b).isSome := by
  constructor
  · rintro ⟨t, rfl, unfolds⟩
    exact ⟨unfolds.acc, fun b => unfolds.found⟩
  · rintro ⟨acc, all⟩
    induction acc with
    | intro a _ ih =>
        obtain ⟨found, here⟩ := Option.isSome_iff_exists.mp (all a .refl)
        have each : ∀ b ∈ found, ∃ t : Rose α, t.label = b ∧ Unfolds kids t := by
          intro b member
          have isKid : IsKid kids b a := ⟨found, here, member⟩
          exact ih b isKid fun c below => all c (.head isKid below)
        obtain ⟨trees, rfl, unfold⟩ := exists_trees each
        exact ⟨.node a trees, rfl, .node here unfold⟩

/-- The work holds the roots of these trees, which unfold. -/
def Unfolding (kids : α → Option (List α)) (s : List α × List α)
    (s' : List (Rose α) × List α) : Prop :=
  s = (s'.1.map Rose.label, s'.2) ∧ ∀ t ∈ s'.1, Unfolds kids t

/-- A visit of a label is the visit of its tree. -/
theorem Unfolding.next {s : List α × List α} {s' s₁' : List (Rose α) × List α}
    (unfolding : Unfolding kids s s') (visit : Rose.visitStep s' = some (.inl s₁')) :
    ∃ s₁, unfoldStep kids s = some (.inl s₁) ∧ Unfolding kids s₁ s₁' := by
  obtain ⟨work, out⟩ := s'
  obtain ⟨rfl, each⟩ := unfolding
  cases work with
  | nil => cases visit
  | cons t work =>
      obtain ⟨unfolds, others⟩ := List.forall_mem_cons.mp each
      obtain @⟨a, trees, found, below⟩ := unfolds
      cases visit
      refine ⟨((trees.map Rose.label).reverse ++ work.map Rose.label, a :: out), ?_, by simp,
        fun t member => ?_⟩
      · simp [unfoldStep, Rose.label, found]
      rcases List.mem_append.mp member with inTrees | inWork
      · exact below t (List.mem_reverse.mp inTrees)
      · exact others t inWork

theorem Unfolding.done {s : List α × List α} {s' : List (Rose α) × List α}
    (unfolding : Unfolding kids s s') (visit : Rose.visitStep s' = some (.inr out)) :
    ∃ out', unfoldStep kids s = some (.inr out') ∧ out' = out := by
  obtain ⟨work, out⟩ := s'
  obtain ⟨rfl, -⟩ := unfolding
  cases work with
  | nil =>
      cases visit
      exact ⟨out, rfl, rfl⟩
  | cons t work =>
      cases t
      cases visit

/-- Visiting the roots of finite trees puts out their post-order. -/
theorem unfold_returns {trees : List (Rose α)} (each : ∀ t ∈ trees, Unfolds kids t) :
    Returns (unfoldStep kids) (trees.map Rose.label, out)
      (Rose.postorderAll trees.reverse ++ out) := by
  have start : Unfolding kids (trees.map Rose.label, out) (trees, out) := ⟨rfl, each⟩
  obtain ⟨out', returns, rfl⟩ := Returns.of_simulation (Unfolding kids) (fun out' out => out' = out)
    (fun _ _ _ unfolding visit => unfolding.next visit)
    (fun _ _ _ unfolding visit => unfolding.done visit) start (Rose.visit_returns trees out)
  exact returns

/-- **A visit ends** exactly when the labels unfold to finite trees. -/
theorem unfold_returns_iff : (∃ result, Returns (unfoldStep kids) (work, out) result) ↔
    ∃ trees : List (Rose α), trees.map Rose.label = work ∧ ∀ t ∈ trees, Unfolds kids t := by
  constructor
  · rintro ⟨result, fuel, ends⟩
    induction fuel generalizing work out with
    | zero => cases ends
    | succ fuel ih =>
        cases work with
        | nil => exact ⟨[], rfl, List.forall_mem_nil _⟩
        | cons a work =>
            cases found : kids a with
            | none => simp [iterate, unfoldStep, found] at ends
            | some found' =>
                have next : unfoldStep kids (a :: work, out) =
                    some (.inl (found'.reverse ++ work, a :: out)) := by
                  simp [unfoldStep, found]
                rw [iterate_next next] at ends
                -- the trees of the children make the tree of the label
                obtain ⟨trees, labels, each⟩ := ih ends
                obtain ⟨below, others, rfl, labelsBelow, rfl⟩ := List.map_eq_append_iff.mp labels
                obtain ⟨eachBelow, eachOther⟩ := List.forall_mem_append.mp each
                refine ⟨.node a below.reverse :: others, rfl,
                  List.forall_mem_cons.mpr ⟨?_, eachOther⟩⟩
                refine .node ?_ fun t member => eachBelow t (List.mem_reverse.mp member)
                rw [List.map_reverse, labelsBelow, List.reverse_reverse, found]
  · rintro ⟨trees, rfl, each⟩
    exact ⟨_, unfold_returns each⟩

/-- A label that comes up below itself does not unfold. -/
theorem not_acc_of_cycle (cycle : Relation.TransGen (IsKid kids) a a) : ¬ Acc (IsKid kids) a := by
  intro acc
  have loops : Acc (Relation.TransGen (IsKid kids)) a := acc.transGen
  induction loops with
  | intro a _ ih => exact ih a cycle cycle acc

end LowFlow.Library
