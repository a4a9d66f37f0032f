import Mathlib.Data.List.Nodup
import Mathlib.Logic.Function.Basic

/-!
# Doubly linked segments of a pointer heap

A heap maps pointers to nodes. A segment is a path of nodes along the `next`
links whose `prev` links lead back. It is described by the list of its
pointers, each with what its node carries besides the links.

The four changes a deque makes to its chain (a node is added or removed at
either end) come from two facts. A segment only depends on the nodes it passes
through (`Segment.frame`), and a segment splits at every point of its list
(`segment_append`).
-/

set_option autoImplicit false

namespace LowFlow.Library

variable {α V : Type*}

/-- How a node is read: its two links, and what it carries. -/
structure NodeView (α V : Type*) where
  prev : α → Option ℕ
  next : α → Option ℕ
  view : α → V

/-- The pointers of a list of nodes. -/
abbrev ptrs (nodes : List (ℕ × V)) : List ℕ := nodes.map Prod.fst

/-- The path from `first` passes exactly the listed nodes, the first of which
points back to `before`, and it leaves the last one towards `after`. -/
def Segment (N : NodeView α V) (heap : ℕ → Option α) (after : Option ℕ) :
    Option ℕ → Option ℕ → List (ℕ × V) → Prop
  | _, first, [] => first = after
  | before, first, (p, v) :: rest =>
      first = some p ∧ ∃ node, heap p = some node ∧ N.view node = v ∧ N.prev node = before ∧
        Segment N heap after (some p) (N.next node) rest

/-- The pointer a segment's successor points back to. -/
def lastPtr (before : Option ℕ) (nodes : List (ℕ × V)) : Option ℕ :=
  (ptrs nodes).getLast?.or before

section Basic

@[simp] theorem lastPtr_nil (before : Option ℕ) : lastPtr before ([] : List (ℕ × V)) = before :=
  rfl

@[simp] theorem lastPtr_cons (before : Option ℕ) (entry : ℕ × V) (rest : List (ℕ × V)) :
    lastPtr before (entry :: rest) = lastPtr (some entry.1) rest := by
  cases rest with
  | nil => rfl
  | cons next rest => simp [lastPtr, List.getLast?_cons]

theorem lastPtr_concat (before : Option ℕ) (nodes : List (ℕ × V)) (entry : ℕ × V) :
    lastPtr before (nodes ++ [entry]) = some entry.1 := by
  simp [lastPtr]

end Basic

variable {N : NodeView α V} {heap heap' : ℕ → Option α} {after before first : Option ℕ}

namespace Segment

/-- A segment only depends on the nodes it passes through. -/
theorem frame {nodes : List (ℕ × V)} (segment : Segment N heap after before first nodes)
    (same : ∀ p ∈ ptrs nodes, heap' p = heap p) :
    Segment N heap' after before first nodes := by
  induction nodes generalizing before first with
  | nil => exact segment
  | cons entry rest ih =>
      obtain ⟨start, node, found, carried, back, tail⟩ := segment
      refine ⟨start, node, ?_, carried, back, ih tail fun p member => same p (by simp_all)⟩
      rw [same _ (by simp), found]

theorem first_eq {nodes : List (ℕ × V)} (segment : Segment N heap after before first nodes) :
    first = (ptrs nodes).head?.or after := by
  cases nodes with
  | nil => simpa [Segment] using segment
  | cons entry rest => simpa using segment.1

/-- The nodes of a null-terminated path are determined by the heap. -/
theorem nodes_eq {nodes others : List (ℕ × V)} {before' : Option ℕ}
    (segment : Segment N heap none before first nodes)
    (segment' : Segment N heap none before' first others) : nodes = others := by
  induction nodes generalizing before before' first others with
  | nil =>
      cases others with
      | nil => rfl
      | cons other others => cases (show first = none from segment).symm.trans segment'.1
  | cons entry rest ih =>
      obtain ⟨rfl, node, found, carried, -, onward⟩ := segment
      cases others with
      | nil => cases (show some entry.1 = none from segment')
      | cons other others =>
          obtain ⟨start, node', found', carried', -, onward'⟩ := segment'
          have same : entry.1 = other.1 := Option.some.inj start
          rw [same, found'] at found
          cases found
          exact congrArg₂ List.cons (Prod.ext same (carried.symm.trans carried'))
            (ih onward onward')

/-- Every listed node is in the heap. -/
theorem lookup {nodes : List (ℕ × V)} (segment : Segment N heap after before first nodes)
    {p : ℕ} {v : V} (member : (p, v) ∈ nodes) :
    ∃ node, heap p = some node ∧ N.view node = v := by
  induction nodes generalizing before first with
  | nil => cases member
  | cons entry rest ih =>
      obtain ⟨-, node, found, carried, -, tail⟩ := segment
      rcases List.mem_cons.mp member with same | later
      · cases same
        exact ⟨node, found, carried⟩
      · exact ih tail later

/-- Changing what one node carries, with its links kept, changes the list at
that pointer only. -/
theorem modify {nodes : List (ℕ × V)} (segment : Segment N heap after before first nodes)
    {p : ℕ} {f : α → α} {g : V → V} (prev_f : ∀ node, N.prev (f node) = N.prev node)
    (next_f : ∀ node, N.next (f node) = N.next node)
    (view_f : ∀ node, N.view (f node) = g (N.view node)) :
    Segment N (Function.update heap p ((heap p).map f)) after before first
      (nodes.map fun entry => (entry.1, if entry.1 = p then g entry.2 else entry.2)) := by
  induction nodes generalizing before first with
  | nil => exact segment
  | cons entry rest ih =>
      obtain ⟨q, v⟩ := entry
      obtain ⟨start, node, found, carried, back, tail⟩ := segment
      by_cases here : q = p
      · subst here
        refine ⟨start, f node, by simp [found], by simp [view_f, carried], by rw [prev_f, back], ?_⟩
        rw [next_f]
        exact ih tail
      · exact ⟨start, node, by simp [here, found], by simp [here, carried], back, ih tail⟩

end Segment

/-- A segment splits at every point of its list. -/
theorem segment_append {front back : List (ℕ × V)} :
    Segment N heap after before first (front ++ back) ↔
      ∃ middle, Segment N heap middle before first front ∧
        Segment N heap after (lastPtr before front) middle back := by
  induction front generalizing before first with
  | nil => simp [Segment]
  | cons entry rest ih =>
      simp only [List.cons_append, Segment, ih, lastPtr_cons]
      constructor
      · rintro ⟨start, node, found, carried, prev, middle, left, right⟩
        exact ⟨middle, ⟨start, node, found, carried, prev, left⟩, right⟩
      · rintro ⟨middle, ⟨start, node, found, carried, prev, left⟩, right⟩
        exact ⟨start, node, found, carried, prev, middle, left, right⟩

namespace Segment

/-- A node linked in front of a chain: the old first node now points back to it. -/
theorem pushFront {p q : ℕ} {v : V} {rest : List (ℕ × V)} {new relinked : α}
    (segment : Segment N heap after before first ((p, v) :: rest))
    (distinct : (ptrs ((p, v) :: rest)).Nodup) (unused : q ∉ ptrs ((p, v) :: rest))
    (next_new : N.next new = some p)
    (relink : ∀ node, heap p = some node → N.view relinked = N.view node ∧
      N.next relinked = N.next node ∧ N.prev relinked = some q) :
    Segment N (Function.update (Function.update heap p (some relinked)) q (some new)) after
      (N.prev new) (some q) ((q, N.view new) :: (p, v) :: rest) := by
  obtain ⟨-, node, found, carried, -, tail⟩ := segment
  obtain ⟨sameView, sameNext, back⟩ := relink node found
  have apart : q ≠ p := fun same => unused (by simp [same])
  refine ⟨rfl, new, by simp, rfl, rfl, next_new, relinked, by simp [apart.symm],
    sameView.trans carried, back, ?_⟩
  rw [sameNext]
  apply tail.frame
  intro r member
  have notQ : r ≠ q := fun same => unused (by simp_all)
  have notP : r ≠ p := fun same => (List.nodup_cons.mp distinct).1 (same ▸ member)
  simp [notQ, notP]

/-- A node linked behind a chain: the old last node now points to it. -/
theorem pushBack {p q : ℕ} {v : V} {front : List (ℕ × V)} {new relinked : α}
    (segment : Segment N heap after before first (front ++ [(p, v)]))
    (distinct : (ptrs (front ++ [(p, v)])).Nodup) (unused : q ∉ ptrs (front ++ [(p, v)]))
    (prev_new : N.prev new = some p)
    (relink : ∀ node, heap p = some node → N.view relinked = N.view node ∧
      N.prev relinked = N.prev node ∧ N.next relinked = some q) :
    Segment N (Function.update (Function.update heap p (some relinked)) q (some new)) (N.next new)
      before first (front ++ [(p, v)] ++ [(q, N.view new)]) := by
  obtain ⟨middle, left, start, node, found, carried, back, -⟩ := segment_append.mp segment
  obtain ⟨sameView, samePrev, next⟩ := relink node found
  have apart : q ≠ p := fun same => unused (by simp [same])
  rw [List.append_assoc, segment_append]
  refine ⟨middle, left.frame ?_, start, relinked, by simp [apart.symm],
    sameView.trans carried, samePrev.trans back, next, new, by simp, rfl, prev_new, rfl⟩
  intro r member
  have notQ : r ≠ q := fun same => unused (by simp_all)
  have notP : r ≠ p := by
    rintro rfl
    simp only [ptrs, List.map_append] at distinct
    exact List.disjoint_of_nodup_append distinct member (by simp)
  simp [notQ, notP]

/-- The first node unlinked: its successor takes over its back link. -/
theorem popFront {p q : ℕ} {v w : V} {rest : List (ℕ × V)} {relinked : α}
    (segment : Segment N heap after before first ((p, v) :: (q, w) :: rest))
    (distinct : (ptrs ((p, v) :: (q, w) :: rest)).Nodup)
    (relink : ∀ node, heap q = some node → N.view relinked = N.view node ∧
      N.next relinked = N.next node ∧ N.prev relinked = before) :
    Segment N (Function.update (Function.update heap q (some relinked)) p none) after
      before (some q) ((q, w) :: rest) := by
  obtain ⟨-, -, -, -, -, -, node, found, carried, -, tail⟩ := segment
  obtain ⟨sameView, sameNext, back⟩ := relink node found
  simp only [ptrs, List.map_cons, List.nodup_cons, List.mem_cons, not_or] at distinct
  refine ⟨rfl, relinked, by simp [Ne.symm distinct.1.1], sameView.trans carried, back, ?_⟩
  rw [sameNext]
  apply tail.frame
  intro r member
  have notP : r ≠ p := fun same => distinct.1.2 (same ▸ member)
  have notQ : r ≠ q := fun same => distinct.2.1 (same ▸ member)
  simp [notP, notQ]

/-- The last node unlinked: its predecessor takes over its forward link. -/
theorem popBack {p q : ℕ} {v w : V} {front : List (ℕ × V)} {relinked : α}
    (segment : Segment N heap after before first (front ++ [(q, w)] ++ [(p, v)]))
    (distinct : (ptrs (front ++ [(q, w)] ++ [(p, v)])).Nodup)
    (relink : ∀ node, heap q = some node → N.view relinked = N.view node ∧
      N.prev relinked = N.prev node ∧ N.next relinked = after) :
    Segment N (Function.update (Function.update heap q (some relinked)) p none) after
      before first (front ++ [(q, w)]) := by
  rw [List.append_assoc, segment_append] at segment
  obtain ⟨middle, left, start, node, found, carried, back, -⟩ := segment
  obtain ⟨sameView, samePrev, next⟩ := relink node found
  simp only [ptrs, List.map_append, List.append_assoc, List.nodup_append', List.map_cons,
    List.map_nil, List.cons_append, List.nil_append] at distinct
  have apart : q ≠ p := by simpa using (List.nodup_cons.mp distinct.2.1).1
  refine segment_append.mpr ⟨middle, left.frame ?_, start, relinked,
    by simp [apart], sameView.trans carried, samePrev.trans back, next⟩
  intro r member
  have notP : r ≠ p := fun same => distinct.2.2 member (by simp [same])
  have notQ : r ≠ q := fun same => distinct.2.2 member (by simp [same])
  simp [notP, notQ]

end Segment

end LowFlow.Library
