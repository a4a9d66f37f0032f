import LowFlow.Library.Postfix
import LowFlow.Memory.StackViews
import LowFlow.Planning.PipelineRuns
import Mathlib

/-!
# Printing the schedule

`core/types.c`. `lf_debug_value` prints the number of an integer and the name of the
function of a call, and a blank behind it; it asserts that there is nothing else.
`lf_debug_stack` prints the schedule of a pipeline with it, as `main` would. After any
calls this prints the plan, 256 values on a line (`debug_prints_plan`). What is printed
is in postfix order, so that it tells the expression (`debug_tells_expression`).
-/

set_option autoImplicit false

namespace LowFlow

open Library

/-! ## The code -/

/-- The names of the values in memory. -/
abbrev Names := ValuePtr → Option (List Char)

/-- `as_int`. -/
def Value.asInt (val : Value) : Option (BitVec 32) :=
  match val.content with
  | .int value => some value
  | _ => none

/-- What `%d` prints. -/
def decimal (value : BitVec 32) : List Char := value.toInt.repr.toList

/-- `lf_debug_value`: what is printed. -/
def lfDebugValue (values : Values) (names : Names) (ptr : ValuePtr) : Option (List Char) := do
  let val ← values ptr
  match val.type with
  | .int => some (decimal (← val.asInt) ++ [' '])
  | .funcCall => some ((← names (← val.funcDef)) ++ [' '])
  | _ => none

/-- `lf_debug_value_from_raw`. -/
def lfDebugValueFromRaw (values : Values) (names : Names) (stack : Stack (Cell ValuePtr))
    (data : Ptr) : Option (List Char) := do
  lfDebugValue values names (← whole (← stack.arena.heap.load data pointerSize))

/-- What is printed of lines of texts. -/
def printLines (lines : List (List (List Char))) : List Char :=
  (lines.map fun line => line.flatten ++ ['\n']).flatten

/-- What a function prints of each slot of the lines. -/
def debugLines (debugFn : Ptr → Option (List Char)) (lines : List (List Ptr)) :
    Option (List (List (List Char))) :=
  lines.mapM fun line => line.mapM debugFn

/-- `lf_debug_stack`, for at most `fuel` rounds of each of its loops, with a function
that prints. -/
def debugText {β : Type} (fuel : ℕ) (stack : Stack β) (debugFn : Ptr → Option (List Char)) :
    Option (List Char) := do
  let lines ← lfDebugStack fuel stack
  some (printLines (← debugLines debugFn lines))

/-- `lf_debug_stack(&pipeline->val_schedule, lf_debug_value_from_raw)`. -/
def LFPassPipeline.debugSchedule (values : Values) (names : Names) (fuel : ℕ)
    (pipeline : LFPassPipeline) : Option (List Char) :=
  debugText fuel pipeline.valSchedule (lfDebugValueFromRaw values names pipeline.valSchedule)

/-! ## Printing line by line -/

theorem map_some_of_mapM {α γ : Type} {f : α → Option γ} {as : List α} {bs : List γ}
    (read : as.mapM f = some bs) : bs.map some = as.map f := by
  induction as generalizing bs with
  | nil =>
      cases read
      rfl
  | cons a as ih =>
      simp only [List.mapM_cons, Option.bind_eq_bind, Option.bind_eq_some_iff] at read
      obtain ⟨b, head, others, tail, same⟩ := read
      cases same
      rw [List.map_cons, List.map_cons, head, ih tail]

theorem mapM_isSome {α γ : Type} {f : α → Option γ} {as : List α} :
    (as.mapM f).isSome = true ↔ ∀ a ∈ as, (f a).isSome = true := by
  induction as with
  | nil => simp
  | cons a as ih =>
      cases here : f a with
      | none => simp [here]
      | some b =>
          cases rest : as.mapM f with
          | none => simp [here, rest, ← ih]
          | some bs => simp [here, rest, ← ih]

theorem debugLines_isSome {debugFn : Ptr → Option (List Char)} {lines : List (List Ptr)} :
    (debugLines debugFn lines).isSome = true ↔
      ∀ text ∈ lines.flatten.map debugFn, text.isSome = true := by
  rw [debugLines, mapM_isSome, List.forall_mem_map]
  constructor
  · intro each ptr member
    obtain ⟨line, inLines, inLine⟩ := List.mem_flatten.mp member
    exact mapM_isSome.mp (each line inLines) ptr inLine
  · intro each line inLines
    exact mapM_isSome.mpr fun ptr inLine => each ptr (List.mem_flatten_of_mem inLines inLine)

/-- The texts are those of the slots, and on the same lines. -/
theorem debugLines_texts {debugFn : Ptr → Option (List Char)} {lines : List (List Ptr)}
    {texts : List (List (List Char))} (read : debugLines debugFn lines = some texts) :
    texts.flatten.map some = lines.flatten.map debugFn ∧
      texts.map List.length = lines.map List.length := by
  induction lines generalizing texts with
  | nil =>
      cases read
      exact ⟨rfl, rfl⟩
  | cons line lines ih =>
      simp only [debugLines, List.mapM_cons, Option.bind_eq_bind, Option.bind_eq_some_iff] at read
      obtain ⟨here, one, others, more, same⟩ := read
      cases same
      obtain ⟨behind, lengths⟩ := ih more
      have first := map_some_of_mapM one
      have length : here.length = line.length := by
        rw [← List.length_map some, first, List.length_map]
      simp [behind, first, lengths, length]

/-- An integer, or a call of a function with a name. -/
def Printable (values : Values) (names : Names) (ptr : ValuePtr) : Prop :=
  ∃ val, values ptr = some val ∧
    ((val.type = .int ∧ ∃ value, val.content = .int value) ∨
      (val.type = .funcCall ∧
        ∃ funcDef name, val.funcDef = some funcDef ∧ names funcDef = some name))

theorem lfDebugValue_isSome {values : Values} {names : Names} {ptr : ValuePtr} :
    (lfDebugValue values names ptr).isSome = true ↔ Printable values names ptr := by
  rw [Option.isSome_iff_exists]
  constructor
  · rintro ⟨text, printed⟩
    simp only [lfDebugValue, Option.bind_eq_bind, Option.bind_eq_some_iff] at printed
    obtain ⟨val, found, printed⟩ := printed
    refine ⟨val, found, ?_⟩
    cases kind : val.type with
    | int =>
        simp only [kind, Value.asInt, Option.bind_eq_some_iff] at printed
        obtain ⟨value, asInt, -⟩ := printed
        cases content : val.content with
        | int value => exact .inl ⟨rfl, value, rfl⟩
        | _ => simp [content] at asInt
    | funcCall =>
        simp only [kind, Option.bind_eq_some_iff] at printed
        obtain ⟨funcDef, called, name, named, -⟩ := printed
        exact .inr ⟨rfl, funcDef, name, called, named⟩
    | _ => simp [kind] at printed
  · rintro ⟨val, found, ⟨kind, value, content⟩ | ⟨kind, funcDef, name, called, named⟩⟩
    · exact ⟨_, by simp [lfDebugValue, found, kind, Value.asInt, content]; rfl⟩
    · exact ⟨_, by simp [lfDebugValue, found, kind, called, named]; rfl⟩

/-- The texts of these values, with as many of them on a line as in a block. Only the
first line may be shorter. -/
structure PrintsLines (values : Values) (names : Names) (ptrs : List ValuePtr)
    (lines : List (List (List Char))) : Prop where
  texts : lines.flatten.map some = ptrs.map (lfDebugValue values names)
  width : ∀ n ∈ lines.map List.length, 0 < n ∧ n ≤ passPipelineValScheduleQttInBlock
  full : ∀ n ∈ (lines.map List.length).tail, n = passPipelineValScheduleQttInBlock

/-- Values that fit in a block are on one line. -/
theorem PrintsLines.one_line {values : Values} {names : Names} {ptrs : List ValuePtr}
    {lines : List (List (List Char))} (prints : PrintsLines values names ptrs lines)
    (some_values : ptrs ≠ []) (fits : ptrs.length ≤ passPipelineValScheduleQttInBlock) :
    ∃ texts, lines = [texts] ∧ texts.map some = ptrs.map (lfDebugValue values names) := by
  obtain ⟨texts, width, full⟩ := prints
  cases lines with
  | nil => exact absurd (List.map_eq_nil_iff.mp texts.symm) some_values
  | cons first others =>
      cases others with
      | nil => exact ⟨first, rfl, by simpa using texts⟩
      | cons second others =>
          -- the second line would be full, and the first one is not empty
          have count := congrArg List.length texts
          have long : second.length = passPipelineValScheduleQttInBlock := full _ (by simp)
          have one : 0 < first.length := (width first.length (by simp)).1
          simp only [List.length_map, List.flatten_cons, List.length_append] at count
          omega

namespace Schedules

variable {ptrs : List ValuePtr} {stack : Stack (Cell ValuePtr)}

/-- The slots of a schedule, line by line, and what is printed of the values in them. -/
theorem shows (schedules : Schedules ptrs stack) (values : Values) (names : Names) :
    ∃ fuel lines, lfDebugStack fuel stack = some lines ∧
      lines.flatten.map (lfDebugValueFromRaw values names stack) =
        ptrs.map (lfDebugValue values names) ∧
      (∀ n ∈ lines.map List.length, 0 < n ∧ n ≤ passPipelineValScheduleQttInBlock) ∧
      ∀ n ∈ (lines.map List.length).tail, n = passPipelineValScheduleQttInBlock := by
  obtain ⟨size, -, used, live, holds, same⟩ := schedules.contains
  obtain ⟨fuel, shown⟩ := holds.shows (by rw [schedules.blockSize]; decide)
  obtain ⟨width, full⟩ := holds.lines_tail (schedules.blockSize.trans (by rw [size]))
  refine ⟨fuel, _, shown, ?_, ?_, ?_⟩
  · have read : ∀ e ∈ live, lfDebugValueFromRaw values names stack e.1 =
        (whole e.2).bind (lfDebugValue values names) := by
      intro e member
      have loaded := holds.load member
      rw [size] at loaded
      simp only [lfDebugValueFromRaw, loaded, Option.bind_eq_bind, Option.bind_some]
    have texts : live.map (lfDebugValueFromRaw values names stack ∘ Prod.fst) =
        (live.map Prod.snd).map fun bytes => (whole bytes).bind (lfDebugValue values names) := by
      rw [List.map_map]
      exact List.map_congr_left read
    rw [holds.tiles.flatten_lines holds.positive holds.sized, List.map_map, texts, same,
      List.map_map]
    apply List.map_congr_left
    intro ptr _
    rw [Function.comp_apply, whole_pieces (by decide), Option.bind_some]
  · refine List.forall_mem_map.mpr ?_
    intro line member
    exact ⟨List.length_pos_of_ne_nil (width line member).1, (width line member).2⟩
  · rw [← List.map_tail]
    exact List.forall_mem_map.mpr full

/-- A schedule is printed when all of it is printable, and line by line. -/
theorem prints (schedules : Schedules ptrs stack) (values : Values) (names : Names) :
    ((∃ fuel text, debugText fuel stack (lfDebugValueFromRaw values names stack) = some text) ↔
      ∀ ptr ∈ ptrs, Printable values names ptr) ∧
    ∀ fuel text, debugText fuel stack (lfDebugValueFromRaw values names stack) = some text →
      ∃ lines, text = printLines lines ∧ PrintsLines values names ptrs lines := by
  obtain ⟨fuel, slots, shown, texts, width, full⟩ := schedules.shows values names
  -- what is shown does not depend on the fuel, so the print is that of these slots
  have printing : ∀ fuel' text,
      debugText fuel' stack (lfDebugValueFromRaw values names stack) = some text →
      ∃ lines, debugLines (lfDebugValueFromRaw values names stack) slots = some lines ∧
        text = printLines lines := by
    intro fuel' text printed
    simp only [debugText, Option.bind_eq_bind, Option.bind_eq_some_iff,
      Option.some.injEq] at printed
    obtain ⟨slots', shown', lines, read, rfl⟩ := printed
    obtain rfl := lfDebugStack_unique shown shown'
    exact ⟨lines, read, rfl⟩
  have printable : (debugLines (lfDebugValueFromRaw values names stack) slots).isSome = true ↔
      ∀ ptr ∈ ptrs, Printable values names ptr := by
    rw [debugLines_isSome, texts, List.forall_mem_map]
    exact forall₂_congr fun _ _ => lfDebugValue_isSome
  refine ⟨⟨?_, ?_⟩, ?_⟩
  · rintro ⟨fuel', text, printed⟩
    obtain ⟨lines, read, -⟩ := printing fuel' text printed
    exact printable.mp (read ▸ rfl)
  · intro each
    obtain ⟨lines, read⟩ := Option.isSome_iff_exists.mp (printable.mpr each)
    refine ⟨fuel, printLines lines, ?_⟩
    simp only [debugText, shown, read, Option.bind_eq_bind, Option.bind_some]
  · intro fuel' text printed
    obtain ⟨lines, read, rfl⟩ := printing fuel' text printed
    obtain ⟨same, lengths⟩ := debugLines_texts read
    exact ⟨lines, rfl, same.trans texts, lengths ▸ width, lengths ▸ full⟩

end Schedules

/-- **What is printed of the schedule.** After any calls in any order, printing the
schedule of the pipeline goes through when it has integers and calls of functions with
names only, and then prints the plan line by line. -/
theorem debug_prints_plan (setting : Setting) (names : Names) (minLevel : Member LogLevel)
    (timeFmt : Member (Option String)) (tree : Rose ValuePtr)
    (spells : Spells setting.values tree) (objects : Objects)
    (strings : setting.StringsLead objects) (calls : List PipelineCall) :
    ∃ least pipeline', (∀ rounds ≥ least,
        (pipelineCalls (setting.withRounds rounds)
          (.declared setting minLevel timeFmt (some tree.label) .none objects)
          (.initPassPipeline :: calls)).result = some pipeline') ∧
      ((∃ fuel text, pipeline'.debugSchedule setting.values names fuel = some text) ↔
        ∀ ptr ∈ (Planner.new.calls tree calls).plan.schedule,
          Printable setting.values names ptr) ∧
      ∀ fuel text, pipeline'.debugSchedule setting.values names fuel = some text →
        ∃ lines, text = printLines lines ∧
          PrintsLines setting.values names
            (Planner.new.calls tree calls).plan.schedule lines := by
  obtain ⟨least, pipeline', done, follows, -⟩ :=
    LFPassPipeline.exists_refined minLevel timeFmt spells strings calls
  obtain ⟨goesThrough, prints⟩ := follows.schedule.prints setting.values names
  exact ⟨least, pipeline', done, goesThrough, prints⟩

/-- The function of the sum is `+`. -/
def sumNames : Names := fun ptr => if ptr = .given 0 then some ['+'] else none

theorem sum_printable : ∀ ptr ∈ sumTree.postorder, Printable sumValues sumNames ptr := by
  have four : Printable sumValues sumNames (.given 1) := ⟨_, rfl, .inl ⟨rfl, 4, rfl⟩⟩
  have five : Printable sumValues sumNames (.given 2) := ⟨_, rfl, .inl ⟨rfl, 5, rfl⟩⟩
  have plus : Printable sumValues sumNames (.given 3) :=
    ⟨_, rfl, .inr ⟨rfl, .given 0, ['+'], rfl, rfl⟩⟩
  intro ptr member
  rcases (show ptr = .given 1 ∨ ptr = .given 2 ∨ ptr = .given 3 by
    simpa [sumTree, Rose.postorder, Rose.postorderAll] using member) with rfl | rfl | rfl
  · exact four
  · exact five
  · exact plus

/-- `main` would print `4 5 +`. -/
theorem debug_prints_plan_sum :
    ∃ pipeline' rounds fuel,
      (pipelineCalls ((sumSetting sumLeftover).withRounds rounds)
        (.declared (sumSetting sumLeftover) (.stored .debug) (.stored none) (some (.given 3)) .none
          sumObjects)
        sumCalls).result = some pipeline' ∧
      pipeline'.debugSchedule sumValues sumNames fuel =
        some (decimal 4 ++ [' '] ++ decimal 5 ++ [' ', '+', ' ', '\n']) := by
  obtain ⟨least, pipeline', done, goesThrough, prints⟩ :=
    debug_prints_plan (sumSetting sumLeftover) sumNames (.stored .debug) (.stored none) sumTree
      sum_spells sumObjects sum_strings sumCalls.tail
  obtain ⟨fuel, text, printed⟩ := goesThrough.mpr sum_printable
  obtain ⟨lines, rfl, printsLines⟩ := prints fuel text printed
  obtain ⟨texts, rfl, same⟩ := printsLines.one_line (by decide) (by decide)
  have words : texts.map some =
      [decimal 4 ++ [' '], decimal 5 ++ [' '], ['+', ' ']].map some := same
  obtain rfl := List.map_injective_iff.mpr (Option.some_injective _) words
  refine ⟨pipeline', least, fuel, done least le_rfl, printed.trans ?_⟩
  simp [printLines]

/-! ## Reading what is printed -/

/-- A number is printed with digits, and a sign before them. -/
theorem isDigit_of_mem_decimal {value : BitVec 32} {c : Char} (member : c ∈ decimal value) :
    c.isDigit = true ∨ c = '-' := by
  have digits : ∀ n : ℕ, c ∈ n.repr.toList → c.isDigit = true := by
    intro n inDigits
    rw [Nat.toList_repr] at inDigits
    exact Nat.isDigit_of_mem_toDigits (by decide) (by decide) inDigits
  rw [decimal] at member
  generalize value.toInt = number at member
  cases number with
  | ofNat n => exact .inl (digits n member)
  | negSucc n =>
      have parts : c ∈ ("-" ++ (n + 1).repr).toList := member
      rw [String.toList_append] at parts
      rcases List.mem_append.mp parts with sign | unsigned
      · exact .inr (List.mem_singleton.mp sign)
      · exact .inl (digits (n + 1) unsigned)

/-- Lists that end where this element is for the first time are known from what they
make one after the other. -/
theorem eq_of_flatten_terminated {α : Type} [DecidableEq α] {stop : α} {one two : List (List α)}
    (endsOne : ∀ l ∈ one, ∃ word, l = word ++ [stop] ∧ stop ∉ word)
    (endsTwo : ∀ l ∈ two, ∃ word, l = word ++ [stop] ∧ stop ∉ word)
    (same : one.flatten = two.flatten) : one = two := by
  induction one generalizing two with
  | nil =>
      cases two with
      | nil => rfl
      | cons l two =>
          obtain ⟨⟨word, rfl, -⟩, -⟩ := List.forall_mem_cons.mp endsTwo
          simp at same
  | cons l one ih =>
      obtain ⟨⟨word, rfl, stops⟩, others⟩ := List.forall_mem_cons.mp endsOne
      cases two with
      | nil => simp at same
      | cons l' two =>
          obtain ⟨⟨word', rfl, stops'⟩, others'⟩ := List.forall_mem_cons.mp endsTwo
          simp only [List.flatten_cons, List.append_assoc, List.singleton_append] at same
          have index := congrArg (List.idxOf stop) same
          rw [List.idxOf_append_of_notMem stops, List.idxOf_append_of_notMem stops',
            List.idxOf_cons_self, List.idxOf_cons_self] at index
          obtain ⟨rfl, rest⟩ := List.append_inj same index
          rw [ih others others' (List.cons.inj rest).2]

/-- How names are chosen so that what is printed can be read: they have no blanks and no
line breaks, and two functions with one name have as many arguments. -/
structure Names.Ranked (names : Names) (values : Values) (arity : List Char → ℕ) : Prop where
  blank : ∀ ptr name, names ptr = some name → ' ' ∉ name
  lineBreak : ∀ ptr name, names ptr = some name → '\n' ∉ name
  rank : ∀ ptr name val spec, names ptr = some name → values ptr = some val →
    val.funcDefSpec = some spec → arity name = spec.argQtt

/-- How many arguments a text takes. -/
def textArity (arity : List Char → ℕ) (text : Option (List Char)) : ℕ :=
  arity (text.getD []).dropLast

section Reading

variable {values : Values} {names : Names} {arity : List Char → ℕ}

theorem lfDebugValue_int {ptr : ValuePtr} {val : Value} {value : BitVec 32}
    (found : values ptr = some val) (kind : val.type = .int) (content : val.content = .int value) :
    lfDebugValue values names ptr = some (decimal value ++ [' ']) := by
  simp [lfDebugValue, found, kind, Value.asInt, content]

theorem lfDebugValue_call {ptr funcDef : ValuePtr} {val : Value} {name : List Char}
    (found : values ptr = some val) (kind : val.type = .funcCall)
    (called : val.funcDef = some funcDef) (named : names funcDef = some name) :
    lfDebugValue values names ptr = some (name ++ [' ']) := by
  simp [lfDebugValue, found, kind, called, named]

/-- A text ends with the only blank in it. -/
theorem Printable.text {ptr : ValuePtr} (printable : Printable values names ptr)
    (ranked : names.Ranked values arity) :
    ∃ word, lfDebugValue values names ptr = some (word ++ [' ']) ∧ ' ' ∉ word ∧ '\n' ∉ word := by
  obtain ⟨val, found, ⟨kind, value, content⟩ | ⟨kind, funcDef, name, called, named⟩⟩ := printable
  · refine ⟨decimal value, lfDebugValue_int found kind content, ?_,
      ?_⟩
    · intro blank
      exact absurd (isDigit_of_mem_decimal blank) (by decide)
    · intro lineBreak
      exact absurd (isDigit_of_mem_decimal lineBreak) (by decide)
  · exact ⟨name, lfDebugValue_call found kind called named, ranked.blank funcDef name named,
      ranked.lineBreak funcDef name named⟩

/-- What is printed, without the line breaks. -/
theorem filter_printLines {lines : List (List (List Char))}
    (plain : ∀ text ∈ lines.flatten, '\n' ∉ text) :
    (printLines lines).filter (· ≠ '\n') = lines.flatten.flatten := by
  induction lines with
  | nil => rfl
  | cons line lines ih =>
      rw [List.flatten_cons] at plain
      obtain ⟨here, others⟩ := List.forall_mem_append.mp plain
      have whole : line.flatten.filter (· ≠ '\n') = line.flatten := by
        apply List.filter_eq_self.mpr
        intro c member
        obtain ⟨text, inLine, inText⟩ := List.mem_flatten.mp member
        exact decide_eq_true fun same => here text inLine (same ▸ inText)
      have behind := ih others
      rw [printLines] at behind ⊢
      rw [List.map_cons, List.flatten_cons, List.filter_append, behind, List.filter_append, whole,
        List.flatten_cons, List.flatten_append]
      simp

mutual

/-- The texts of a tree take as many arguments as their nodes have. -/
theorem Spells.ranked (ranked : names.Ranked values arity)
    (numbers : ∀ value, arity (decimal value) = 0) :
    ∀ {tree : Rose ValuePtr}, Spells values tree →
      (∀ ptr ∈ tree.postorder, Printable values names ptr) →
      (tree.map (lfDebugValue values names)).Ranked (textArity arity)
  | .node ptr kids, ⟨val, found, shape⟩, printable => by
      rw [Rose.postorder] at printable
      obtain ⟨inKids, here⟩ := List.forall_mem_append.mp printable
      obtain ⟨val', found', printed⟩ := here ptr (List.mem_singleton_self ptr)
      obtain rfl := Option.some.inj (found.symm.trans found')
      rw [Rose.map, Rose.Ranked, Rose.length_mapAll]
      rcases shape with ⟨leaf, rfl⟩ | ⟨call, ⟨spec, called, count⟩, -, spellsKids⟩
      · rcases printed with ⟨kind, value, content⟩ | ⟨kind, -⟩
        · rw [lfDebugValue_int found kind content]
          exact ⟨by simpa [textArity] using numbers value, trivial⟩
        · rw [kind] at leaf
          exact absurd leaf (by decide)
      · rcases printed with ⟨kind, -⟩ | ⟨kind, funcDef, name, refers, named⟩
        · rw [kind] at call
          cases call
        · rw [lfDebugValue_call found kind refers named]
          simp only [Value.calledSpec, refers, Option.bind_eq_bind, Option.bind_some,
            Option.bind_eq_some_iff] at called
          obtain ⟨definition, isDefined, isSpec⟩ := called
          have rank := ranked.rank funcDef name definition spec named isDefined isSpec
          exact ⟨by simpa [textArity] using rank.trans count,
            spellsKids.ranked ranked numbers inKids⟩

theorem SpellsAll.ranked (ranked : names.Ranked values arity)
    (numbers : ∀ value, arity (decimal value) = 0) :
    ∀ {trees : List (Rose ValuePtr)}, SpellsAll values trees →
      (∀ ptr ∈ Rose.postorderAll trees, Printable values names ptr) →
      Rose.RankedAll (textArity arity) (Rose.mapAll (lfDebugValue values names) trees)
  | [], _, _ => trivial
  | tree :: trees, ⟨spells, spellsAll⟩, printable => by
      rw [Rose.postorderAll] at printable
      obtain ⟨here, others⟩ := List.forall_mem_append.mp printable
      exact ⟨spells.ranked ranked numbers here, spellsAll.ranked ranked numbers others⟩

end

end Reading

/-- The schedule of a plan is the post-order, once for each pass that builds it. -/
theorem Plan.schedule_after (tree : Rose ValuePtr) (plan : Plan) (passes : List PassFn) :
    (plan.after tree passes).schedule =
      (List.replicate (passes.count .buildValSchedule) tree.postorder).flatten ++
        plan.schedule := by
  induction passes generalizing plan with
  | nil => rfl
  | cons fn passes ih =>
      rw [Plan.after_cons, ih]
      cases fn with
      | buildValSchedule => simp [Plan.pass, List.replicate_succ']
      | partitionFlows => simp [Plan.pass]

/-- How often the schedule was built after these calls, when it was built this often and
these passes were in the pipeline before. -/
def builtAfter : List PassFn → ℕ → List PipelineCall → ℕ
  | _, built, [] => built
  | _, _, .initPassPipeline :: calls => builtAfter [] 0 calls
  | passes, built, .pushPass _ applyFn :: calls => builtAfter (passes ++ [applyFn]) built calls
  | passes, built, .processPassPipeline :: calls =>
      builtAfter passes (passes.count .buildValSchedule + built) calls

/-- The schedule of a planner is the post-order, as often as it was built. -/
theorem Planner.schedule_calls {tree : Rose ValuePtr} (calls : List PipelineCall) :
    ∀ {planner : Planner} {built : ℕ},
      planner.plan.schedule = (List.replicate built tree.postorder).flatten →
      (planner.calls tree calls).plan.schedule =
        (List.replicate (builtAfter planner.passes built calls) tree.postorder).flatten := by
  induction calls with
  | nil => exact fun schedule => schedule
  | cons c calls ih =>
      intro planner built schedule
      rw [Planner.calls_cons]
      cases c with
      | initPassPipeline => exact ih rfl
      | pushPass name applyFn => exact ih schedule
      | processPassPipeline =>
          refine ih ?_
          change (planner.plan.after tree planner.passes).schedule = _
          rw [Plan.schedule_after, schedule, ← List.flatten_append, ← List.replicate_add]

/-- This text is printed of the schedule after these calls. -/
def Setting.PrintsAfter (setting : Setting) (names : Names) (tree : Rose ValuePtr)
    (calls : List PipelineCall) (text : List Char) : Prop :=
  ∃ minLevel timeFmt objects least pipeline fuel, setting.StringsLead objects ∧
    (∀ rounds ≥ least, (pipelineCalls (setting.withRounds rounds)
      (.declared setting minLevel timeFmt (some tree.label) .none objects)
      (.initPassPipeline :: calls)).result = some pipeline) ∧
    pipeline.debugSchedule setting.values names fuel = some text

/-- The words that are printed after some calls. -/
theorem Setting.PrintsAfter.words {setting : Setting} {names : Names} {arity : List Char → ℕ}
    {tree : Rose ValuePtr} {calls : List PipelineCall} {text : List Char}
    (prints : setting.PrintsAfter names tree calls text) (spells : Spells setting.values tree)
    (ranked : names.Ranked setting.values arity) :
    (∀ ptr ∈ (Planner.new.calls tree calls).plan.schedule,
      Printable setting.values names ptr) ∧
    ∃ words : List (List Char), text.filter (· ≠ '\n') = words.flatten ∧
      (∀ l ∈ words, ∃ word, l = word ++ [' '] ∧ ' ' ∉ word) ∧
      words.map some = (Planner.new.calls tree calls).plan.schedule.map
        (lfDebugValue setting.values names) := by
  obtain ⟨minLevel, timeFmt, objects, least, pipeline, fuel, strings, done, printed⟩ := prints
  obtain ⟨least', pipeline', done', follows, -⟩ :=
    LFPassPipeline.exists_refined minLevel timeFmt spells strings calls
  obtain rfl : pipeline = pipeline' := by
    have one := done (max least least') (Nat.le_max_left ..)
    have other := done' (max least least') (Nat.le_max_right ..)
    exact Option.some.inj (one.symm.trans other)
  obtain ⟨goesThrough, isPrinted⟩ := follows.schedule.prints setting.values names
  have printable := goesThrough.mp ⟨fuel, text, printed⟩
  obtain ⟨lines, rfl, texts, -⟩ := isPrinted fuel text printed
  have each : ∀ l ∈ lines.flatten, ∃ word, l = word ++ [' '] ∧ ' ' ∉ word ∧ '\n' ∉ word := by
    intro l member
    have inTexts := texts ▸ List.mem_map_of_mem (f := some) member
    obtain ⟨ptr, inSchedule, isText⟩ := List.mem_map.mp inTexts
    obtain ⟨word, isWord, plain⟩ := (printable ptr inSchedule).text ranked
    exact ⟨word, Option.some.inj (isText.symm.trans isWord), plain⟩
  refine ⟨printable, lines.flatten, filter_printLines ?_, ?_, texts⟩
  · intro l member
    obtain ⟨word, rfl, -, noBreak⟩ := each l member
    simp [noBreak]
  · intro l member
    obtain ⟨word, same, noBlank, -⟩ := each l member
    exact ⟨word, same, noBlank⟩

/-- **What is printed tells the expression.** When two pipelines print one text of
their schedules, with names that can be read, the schedules were built equally often and
the trees have the same texts at the same nodes. -/
theorem debug_tells_expression {arity : List Char → ℕ}
    (numbers : ∀ value, arity (decimal value) = 0) {settingA settingB : Setting}
    {namesA namesB : Names} (rankedA : namesA.Ranked settingA.values arity)
    (rankedB : namesB.Ranked settingB.values arity) {treeA treeB : Rose ValuePtr}
    (spellsA : Spells settingA.values treeA) (spellsB : Spells settingB.values treeB)
    {callsA callsB : List PipelineCall} {text : List Char}
    (printsA : settingA.PrintsAfter namesA treeA callsA text)
    (printsB : settingB.PrintsAfter namesB treeB callsB text)
    (scheduled : 0 < builtAfter [] 0 callsA) :
    builtAfter [] 0 callsA = builtAfter [] 0 callsB ∧
      treeA.map (lfDebugValue settingA.values namesA) =
        treeB.map (lfDebugValue settingB.values namesB) := by
  obtain ⟨printableA, wordsA, textA, endsA, sameA⟩ := printsA.words spellsA rankedA
  obtain ⟨printableB, wordsB, textB, endsB, sameB⟩ := printsB.words spellsB rankedB
  obtain rfl := eq_of_flatten_terminated endsA endsB (textA.symm.trans textB)
  have schedule (tree : Rose ValuePtr) (calls : List PipelineCall) :
      (Planner.new.calls tree calls).plan.schedule =
        (List.replicate (builtAfter [] 0 calls) tree.postorder).flatten :=
    @Planner.schedule_calls tree calls .new 0 rfl
  rw [schedule] at printableA sameA printableB sameB
  have trees : List.replicate (builtAfter [] 0 callsA)
      (treeA.map (lfDebugValue settingA.values namesA)) =
      List.replicate (builtAfter [] 0 callsB)
        (treeB.map (lfDebugValue settingB.values namesB)) := by
    refine Rose.eq_of_postorderAll
      (Rose.rankedAll_replicate fun built => spellsA.ranked rankedA numbers ?_)
      (Rose.rankedAll_replicate fun built => spellsB.ranked rankedB numbers ?_) ?_
    · exact fun ptr member => printableA ptr (List.mem_flatten_of_mem
        (List.mem_replicate.mpr ⟨built, rfl⟩) member)
    · exact fun ptr member => printableB ptr (List.mem_flatten_of_mem
        (List.mem_replicate.mpr ⟨built, rfl⟩) member)
    · rw [Rose.postorderAll_replicate, Rose.postorderAll_replicate, ← sameA, ← sameB]
  obtain ⟨equallyOften, same⟩ := List.replicate_inj.mp trees
  exact ⟨equallyOften, same.resolve_left (Nat.ne_of_gt scheduled)⟩

/-- `+` takes two arguments. -/
def sumArity (word : List Char) : ℕ := if word = ['+'] then 2 else 0

theorem sumArity_decimal (value : BitVec 32) : sumArity (decimal value) = 0 := by
  apply if_neg
  intro plus
  have sign : '+' ∈ decimal value := by simp [plus]
  exact absurd (isDigit_of_mem_decimal sign) (by decide)

theorem sumNames_ranked : sumNames.Ranked sumValues sumArity := by
  have plus : ∀ ptr name, sumNames ptr = some name → ptr = .given 0 ∧ name = ['+'] := by
    intro ptr name named
    by_cases here : ptr = .given 0
    · exact ⟨here, by simpa [sumNames, here] using named.symm⟩
    · simp [sumNames, here] at named
  refine ⟨?_, ?_, ?_⟩
  · intro ptr name named
    obtain ⟨-, rfl⟩ := plus ptr name named
    decide
  · intro ptr name named
    obtain ⟨-, rfl⟩ := plus ptr name named
    decide
  · intro ptr name val spec named
    obtain ⟨rfl, rfl⟩ := plus ptr name named
    rintro ⟨⟩ ⟨⟩
    rfl

/-- A schedule that fits in a block is printed on one line. -/
theorem Setting.printsAfter_one_line {setting : Setting} {names : Names} {tree : Rose ValuePtr}
    {calls : List PipelineCall} {texts : List (List Char)} (minLevel : Member LogLevel)
    (timeFmt : Member (Option String)) {objects : Objects} (strings : setting.StringsLead objects)
    (spells : Spells setting.values tree) (some_texts : texts ≠ [])
    (fits : texts.length ≤ passPipelineValScheduleQttInBlock)
    (same : texts.map some = (Planner.new.calls tree calls).plan.schedule.map
      (lfDebugValue setting.values names)) :
    setting.PrintsAfter names tree calls (texts.flatten ++ ['\n']) := by
  obtain ⟨least, pipeline, done, follows, -⟩ :=
    LFPassPipeline.exists_refined minLevel timeFmt spells strings calls
  obtain ⟨goesThrough, prints⟩ := follows.schedule.prints setting.values names
  have printable : ∀ ptr ∈ (Planner.new.calls tree calls).plan.schedule,
      Printable setting.values names ptr := by
    intro ptr member
    have inTexts := same ▸ List.mem_map_of_mem (f := lfDebugValue setting.values names) member
    obtain ⟨text, -, isText⟩ := List.mem_map.mp inTexts
    exact lfDebugValue_isSome.mp (isText ▸ rfl)
  have length := congrArg List.length same
  rw [List.length_map, List.length_map] at length
  obtain ⟨fuel, text, printed⟩ := goesThrough.mpr printable
  obtain ⟨lines, rfl, printsLines⟩ := prints fuel text printed
  obtain ⟨texts', rfl, same'⟩ := printsLines.one_line
    (List.ne_nil_of_length_pos (length ▸ List.length_pos_of_ne_nil some_texts)) (length ▸ fits)
  obtain rfl := List.map_injective_iff.mpr (Option.some_injective _) (same'.trans same.symm)
  refine ⟨minLevel, timeFmt, objects, least, pipeline, fuel, strings, done, printed.trans ?_⟩
  simp [printLines]

/-- One pipeline builds the schedule and partitions it, the other one builds it twice, is
initialized again, and builds it once more. -/
theorem debug_tells_expression_sum :
    ∃ text, (sumSetting sumLeftover).PrintsAfter sumNames sumTree sumCalls.tail text ∧
      (sumSetting sumLeftover).PrintsAfter sumNames sumTree
        [.pushPass [115] .buildValSchedule, .processPassPipeline, .processPassPipeline,
          .initPassPipeline, .pushPass [115] .buildValSchedule, .processPassPipeline] text ∧
      builtAfter [] 0 sumCalls.tail =
        builtAfter [] 0 [.pushPass [115] .buildValSchedule, .processPassPipeline,
          .processPassPipeline, .initPassPipeline, .pushPass [115] .buildValSchedule,
          .processPassPipeline] ∧
      sumTree.map (lfDebugValue sumValues sumNames) =
        sumTree.map (lfDebugValue sumValues sumNames) := by
  have prints : ∀ calls : List PipelineCall,
      (Planner.new.calls sumTree calls).plan.schedule = sumTree.postorder →
      (sumSetting sumLeftover).PrintsAfter sumNames sumTree calls
        ([decimal 4 ++ [' '], decimal 5 ++ [' '], ['+', ' ']].flatten ++ ['\n']) := by
    intro calls scheduled
    refine Setting.printsAfter_one_line (.stored .debug) (.stored none) sum_strings sum_spells
      (by decide) (by decide) ?_
    rw [scheduled]
    rfl
  have once := prints sumCalls.tail rfl
  have again := prints [.pushPass [115] .buildValSchedule, .processPassPipeline,
    .processPassPipeline, .initPassPipeline, .pushPass [115] .buildValSchedule,
    .processPassPipeline] rfl
  exact ⟨_, once, again, debug_tells_expression sumArity_decimal sumNames_ranked sumNames_ranked
    sum_spells sum_spells once again (by decide)⟩

end LowFlow
