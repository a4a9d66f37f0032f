import LowFlow.Runtime.Flow

/-!
# Expressions on a frame

An expression is a literal or a call of a native function on expressions. Its
entries on a schedule are those of its arguments, and then its own. A call keeps
nothing on the frame but its result, so that the arguments evaluated before a
call are lost to the call above it. Running the entries therefore gives the
value of the expression when calls are first arguments only and every function is
defined where it is called (`run_of_leftNested`), and else fails
(`run_of_not_leftNested`).
-/

set_option autoImplicit false

namespace LowFlow

open Library

/-- An expression. -/
inductive Expr where
  | literal (value : Value)
  | call (nativeImpl : ℕ) (args : List Expr)

namespace Expr

mutual

/-- The value of an expression. -/
def eval (natives : Natives) : Expr → Value
  | .literal value => value
  | .call nativeImpl args => natives nativeImpl (evalAll natives args)

def evalAll (natives : Natives) : List Expr → List Value
  | [] => []
  | arg :: args => eval natives arg :: evalAll natives args

end

mutual

/-- The value of an expression, where its functions are defined. -/
def evalWith (fs : Partials) : Expr → Option Value
  | .literal value => some value
  | .call nativeImpl args => do fs nativeImpl (← evalAllWith fs args)

def evalAllWith (fs : Partials) : List Expr → Option (List Value)
  | [] => some []
  | arg :: args => do
      let value ← evalWith fs arg
      some (value :: (← evalAllWith fs args))

end

mutual

/-- The entries of an expression on a schedule. -/
def entries : Expr → List Entry
  | .literal value => [.literal value]
  | .call nativeImpl args => entriesAll args ++ [.call args.length nativeImpl]

def entriesAll : List Expr → List Entry
  | [] => []
  | arg :: args => entries arg ++ entriesAll args

end

def isLiteral : Expr → Bool
  | .literal _ => true
  | .call _ _ => false

/-- In every call only the first argument can be a call. -/
def leftNested : Expr → Bool
  | .literal _ => true
  | .call _ [] => true
  | .call _ (first :: others) => first.leftNested && others.all isLiteral

/-! ## The value of an expression -/

section Values

variable {fs : Partials} {natives : Natives}

theorem evalWith_call (nativeImpl : ℕ) (args : List Expr) :
    (Expr.call nativeImpl args).evalWith fs = (evalAllWith fs args).bind (fs nativeImpl) := by
  rw [evalWith]
  rfl

/-- The value of the first argument is computed first. -/
theorem evalAllWith_cons (arg : Expr) (args : List Expr) :
    evalAllWith fs (arg :: args) =
      (evalWith fs arg).bind fun value => (evalAllWith fs args).map (value :: ·) := by
  rw [evalAllWith]
  cases evalWith fs arg with
  | none => rfl
  | some value => cases evalAllWith fs args <;> rfl

mutual

/-- With functions that never fail every expression has its value. -/
theorem evalWith_partials : ∀ expr : Expr,
    expr.evalWith natives.partials = some (expr.eval natives)
  | .literal value => by rw [evalWith, eval]
  | .call nativeImpl args => by
      rw [evalWith_call, evalAllWith_partials args, eval]
      rfl

theorem evalAllWith_partials : ∀ args : List Expr,
    evalAllWith natives.partials args = some (evalAll natives args)
  | [] => by rw [evalAllWith, evalAll]
  | arg :: args => by
      rw [evalAllWith_cons, evalWith_partials arg, evalAllWith_partials args, evalAll]
      rfl

end

/-- Literals have values. -/
theorem evalAllWith_literals {args : List Expr} (literals : args.all isLiteral) :
    ∃ values, evalAllWith fs args = some values ∧ values.length = args.length := by
  induction args with
  | nil => exact ⟨[], by rw [evalAllWith], rfl⟩
  | cons arg args ih =>
      rw [List.all_cons, Bool.and_eq_true] at literals
      obtain ⟨here, others⟩ := literals
      obtain ⟨values, evaluated, length⟩ := ih others
      cases arg with
      | call nativeImpl args => cases here
      | literal value =>
          exact ⟨value :: values, by simp [evalAllWith_cons, evalWith, evaluated], by simp [length]⟩

end Values

/-! ## Running the entries -/

section Run

variable {fs : Partials} {rest : List Entry}

theorem run_literal (value : Value) (vals : List Value) (lost : ℕ) :
    Frame.run fs (.literal value :: rest) ⟨vals, lost⟩ =
      Frame.run fs rest ⟨value :: vals, lost⟩ := rfl

/-- A call that has its arguments. -/
theorem run_call {frame : Frame} {argQtt nativeImpl : ℕ} (enough : argQtt ≤ frame.vals.length) :
    Frame.run fs (.call argQtt nativeImpl :: rest) frame =
      (fs nativeImpl (frame.vals.take argQtt).reverse).bind fun res =>
        Frame.run fs rest ⟨[res], frame.lost + (frame.vals.length - argQtt)⟩ := by
  have passes : ¬ frame.count < argQtt := by
    simp only [Frame.count]
    omega
  cases defined : fs nativeImpl (frame.vals.take argQtt).reverse <;>
    simp [Frame.run, Frame.step, passes, enough, defined]

/-- A call that passes the check without having its arguments. -/
theorem run_call_past {frame : Frame} {argQtt nativeImpl : ℕ} (passes : argQtt ≤ frame.count)
    (past : frame.vals.length < argQtt) :
    Frame.run fs (.call argQtt nativeImpl :: rest) frame = none := by
  simp [Frame.run, Frame.step, Nat.not_lt.mpr passes, Nat.not_le.mpr past]

/-- Literals are put on the frame one after the other. -/
theorem run_literals {args : List Expr} (literals : args.all isLiteral) {values : List Value}
    (evaluated : evalAllWith fs args = some values) (vals : List Value) (lost : ℕ) :
    Frame.run fs (entriesAll args ++ rest) ⟨vals, lost⟩ =
      Frame.run fs rest ⟨values.reverse ++ vals, lost⟩ := by
  induction args generalizing vals values with
  | nil =>
      rw [evalAllWith] at evaluated
      cases evaluated
      rfl
  | cons arg args ih =>
      rw [List.all_cons, Bool.and_eq_true] at literals
      obtain ⟨here, others⟩ := literals
      cases arg with
      | call nativeImpl args => cases here
      | literal value =>
          simp only [evalAllWith_cons, evalWith, Option.bind_some,
            Option.map_eq_some_iff] at evaluated
          obtain ⟨values, evaluated, rfl⟩ := evaluated
          simp only [entriesAll, entries, List.cons_append, List.nil_append, run_literal,
            ih others evaluated]
          simp

/-- A call of arguments that are on top of the frame. -/
theorem run_call_of_args {nativeImpl n : ℕ} {values : List Value} (length : values.length = n)
    (vals : List Value) (lost : ℕ) :
    Frame.run fs (.call n nativeImpl :: rest) ⟨values.reverse ++ vals, lost⟩ =
      (fs nativeImpl values).bind fun res => Frame.run fs rest ⟨[res], lost + vals.length⟩ := by
  have reversed : values.reverse.length = n := List.length_reverse.trans length
  rw [run_call (by simp [length]), ← reversed, List.take_left, List.reverse_reverse,
    List.length_append, Nat.add_sub_cancel_left]

/-- **A left-nested call** leaves its value on the frame and nothing else, or fails where
a function does. -/
theorem run_of_leftNested {expr : Expr} (nested : expr.leftNested) (isCall : ¬ expr.isLiteral)
    (vals : List Value) (lost : ℕ) (rest : List Entry) :
    Frame.run fs (expr.entries ++ rest) ⟨vals, lost⟩ =
      (expr.evalWith fs).bind fun value => Frame.run fs rest ⟨[value], lost + vals.length⟩ := by
  induction expr using leftNested.induct generalizing vals lost rest with
  | case1 value => exact absurd rfl isCall
  | case2 nativeImpl => exact @run_call_of_args fs rest nativeImpl 0 [] rfl vals lost
  | case3 nativeImpl first others ih =>
      rw [leftNested, Bool.and_eq_true] at nested
      obtain ⟨nestedFirst, literals⟩ := nested
      obtain ⟨values, evaluated, length⟩ := @evalAllWith_literals fs others literals
      rw [entries, List.append_assoc, List.singleton_append, entriesAll, List.append_assoc]
      cases first with
      | literal value =>
          -- all arguments are literals
          have args := @run_call_of_args fs rest nativeImpl _ (value :: values)
            (congrArg (· + 1) length) vals lost
          rw [List.reverse_cons, List.append_assoc] at args
          exact (run_literals literals evaluated (value :: vals) lost).trans
            (args.trans (by simp [evalAllWith_cons, evalWith, evaluated]))
      | call impl args =>
          -- the first argument leaves its value alone on the frame
          rw [ih nestedFirst (by simp [isLiteral])]
          cases alone : (Expr.call impl args).evalWith fs with
          | none => simp [evalWith_call nativeImpl, evalAllWith_cons, alone]
          | some value =>
              have all := @run_call_of_args fs rest nativeImpl _ (value :: values)
                (congrArg (· + 1) length) [] (lost + vals.length)
              rw [List.reverse_cons, List.append_nil] at all
              rw [Option.bind_some, run_literals literals evaluated]
              exact all.trans
                (by simp [evalWith_call nativeImpl, evalAllWith_cons, alone, evaluated])

end Run

/-! ## Expressions that are not left-nested -/

/-- The entries change the frame like this, whatever comes behind them. -/
def RunsTo (fs : Partials) (entries : List Entry) (frame frame' : Frame) : Prop :=
  ∀ rest, Frame.run fs (entries ++ rest) frame = Frame.run fs rest frame'

/-- The entries fail, whatever comes behind them. -/
def RunsPast (fs : Partials) (entries : List Entry) (frame : Frame) : Prop :=
  ∀ rest, Frame.run fs (entries ++ rest) frame = none

section Past

variable {fs : Partials} {one two : List Entry} {frame frame' frame'' : Frame}

theorem RunsTo.append (first : RunsTo fs one frame frame')
    (second : RunsTo fs two frame' frame'') : RunsTo fs (one ++ two) frame frame'' := by
  intro rest
  rw [List.append_assoc, first, second]

theorem RunsPast.append (first : RunsPast fs one frame) (two : List Entry) :
    RunsPast fs (one ++ two) frame := by
  intro rest
  rw [List.append_assoc, first]

theorem RunsTo.past (first : RunsTo fs one frame frame')
    (second : RunsPast fs two frame') : RunsPast fs (one ++ two) frame := by
  intro rest
  rw [List.append_assoc, first, second]

end Past

mutual

/-- An expression fails, or counts one value more. A call then leaves its value only. -/
theorem runs (fs : Partials) : ∀ (expr : Expr) (frame : Frame),
    RunsPast fs expr.entries frame ∨ ∃ frame', RunsTo fs expr.entries frame frame' ∧
      frame'.count = frame.count + 1 ∧ (expr.isLiteral = false → frame'.vals.length = 1)
  | .literal value, frame =>
      .inr ⟨{ frame with vals := value :: frame.vals }, fun _ => rfl,
        by simp [Frame.count, Nat.add_right_comm], by simp [isLiteral]⟩
  | .call nativeImpl args, frame => by
      rcases runsAll fs args frame with past | ⟨frame', runsTo, count, -⟩
      · exact .inl (past.append _)
      have passes : args.length ≤ frame'.count := by omega
      by_cases enough : args.length ≤ frame'.vals.length
      case neg => exact .inl (runsTo.past fun _ => run_call_past passes (Nat.not_le.mp enough))
      cases defined : fs nativeImpl (frame'.vals.take args.length).reverse with
      | none => exact .inl (runsTo.past fun _ => (run_call enough).trans (by rw [defined]; rfl))
      | some res =>
          refine .inr ⟨_, runsTo.append fun _ => (run_call enough).trans (by rw [defined]; rfl), ?_,
            fun _ => rfl⟩
          simp only [Frame.count, List.length_singleton] at count ⊢
          omega

/-- Expressions fail, or count as many values more. After a call among them no more
values than theirs are on the frame. -/
theorem runsAll (fs : Partials) : ∀ (args : List Expr) (frame : Frame),
    RunsPast fs (entriesAll args) frame ∨
      ∃ frame', RunsTo fs (entriesAll args) frame frame' ∧
        frame'.count = frame.count + args.length ∧
        (args.all isLiteral = false → frame'.vals.length ≤ args.length)
  | [], frame => .inr ⟨frame, fun _ => rfl, rfl, by simp⟩
  | arg :: args, frame => by
      rcases runs fs arg frame with past | ⟨frame₁, first, count₁, alone⟩
      · exact .inl (past.append _)
      by_cases literals : args.all isLiteral
      · obtain ⟨values, evaluated, length⟩ := @evalAllWith_literals fs args literals
        refine .inr ⟨⟨values.reverse ++ frame₁.vals, frame₁.lost⟩,
          first.append fun _ => run_literals literals evaluated _ _, ?_, ?_⟩
        · simp only [Frame.count, List.length_append, List.length_reverse, length,
            List.length_cons] at count₁ ⊢
          omega
        · intro some_call
          rw [List.all_cons, literals, Bool.and_true] at some_call
          simp [alone some_call, length]
      · rcases runsAll fs args frame₁ with past | ⟨frame₂, others, count₂, few⟩
        · exact .inl (first.past past)
        · refine .inr ⟨frame₂, first.append others, by simp only [List.length_cons]; omega, ?_⟩
          intro _
          exact Nat.le_succ_of_le (few (Bool.not_eq_true _ ▸ literals))

end

/-- **An expression that is not left-nested** fails on every frame. -/
theorem run_of_not_leftNested (fs : Partials) {expr : Expr} (nested : ¬ expr.leftNested)
    (frame : Frame) : RunsPast fs expr.entries frame := by
  induction expr using leftNested.induct generalizing frame with
  | case1 value => exact absurd rfl nested
  | case2 nativeImpl => exact absurd rfl nested
  | case3 nativeImpl first others ih =>
      rw [leftNested, Bool.and_eq_true, not_and] at nested
      rw [entries, entriesAll]
      by_cases nestedFirst : first.leftNested
      · -- after the call among the others there are too few values
        have some_call : others.all isLiteral = false := Bool.not_eq_true _ ▸ nested nestedFirst
        rcases runs fs first frame with past | ⟨frame₁, here, count₁, -⟩
        · exact (past.append _).append _
        rcases runsAll fs others frame₁ with past | ⟨frame₂, onward, count₂, few⟩
        · exact (here.past past).append _
        refine (here.append onward).past fun _ => run_call_past ?_ ?_
        · simp only [List.length_cons]
          omega
        · exact Nat.lt_succ_of_le (few some_call)
      · exact ((ih nestedFirst frame).append _).append _

/-- Running the entries of an expression. -/
theorem run_entries (fs : Partials) (expr : Expr) :
    Frame.run fs expr.entries .empty =
      if expr.leftNested then (expr.evalWith fs).map fun value => ⟨[value], 0⟩ else none := by
  split
  · rename_i nested
    cases expr with
    | literal value => rw [evalWith]; rfl
    | call nativeImpl args =>
        have runs := @run_of_leftNested fs _ nested (by simp [isLiteral]) [] 0 []
        rw [List.append_nil] at runs
        apply runs.trans
        cases (Expr.call nativeImpl args).evalWith fs <;> rfl
  · rename_i nested
    have past := run_of_not_leftNested fs nested .empty []
    rwa [List.append_nil] at past

/-- No call of an expression is refused by the check. -/
theorem run_entries_refused (fs : Partials) (expr : Expr) :
    Frame.run fs (expr.entries ++ [.refused]) .empty = none := by
  rcases runs fs expr .empty with past | ⟨frame, runsTo, -⟩
  · exact past _
  · rw [runsTo]
    rfl

/-! ## Functions that never fail -/

/-- The frame that evaluating the expression leaves: after a call only its value is
there, and what was there before is lost. -/
def leaves (natives : Natives) (expr : Expr) (frame : Frame) : Frame :=
  if expr.isLiteral then ⟨expr.eval natives :: frame.vals, frame.lost⟩
  else ⟨[expr.eval natives], frame.lost + frame.vals.length⟩

section Leaves

variable {natives : Natives} {expr : Expr}

theorem runsTo_leaves (nested : expr.leftNested) (frame : Frame) :
    RunsTo natives.partials expr.entries frame (expr.leaves natives frame) := by
  intro rest
  cases expr with
  | literal value =>
      rw [leaves, eval]
      rfl
  | call nativeImpl args =>
      rw [run_of_leftNested nested (by simp [isLiteral]), evalWith_partials]
      rfl

/-- The value is on top. -/
theorem leaves_cons (natives : Natives) (expr : Expr) (frame : Frame) :
    ∃ others, expr.leaves natives frame = ⟨expr.eval natives :: others,
      (expr.leaves natives frame).lost⟩ ∧ others.length + (expr.leaves natives frame).lost =
        frame.count ∧ (expr.isLiteral = false → others = []) := by
  cases expr with
  | literal value => exact ⟨frame.vals, rfl, rfl, by simp [isLiteral]⟩
  | call nativeImpl args =>
      refine ⟨[], rfl, ?_, fun _ => rfl⟩
      simp only [leaves, isLiteral, Frame.count, List.length_nil, Bool.false_eq_true, ↓reduceIte]
      omega

end Leaves

end Expr

end LowFlow
