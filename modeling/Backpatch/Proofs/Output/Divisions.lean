import Backpatch.Proofs.Output.Paths

/-!
# Divisions

Every division of a compiled program stands behind a guard, which calls the handler if the divisor
is zero, and no other branch leads between the two. So no execution comes to a division by zero, as
long as the handler does not return (`Program.compile_guards`).
-/

namespace Backpatch

open List

/-! ## Executions -/

/-- A moment of an execution inside a function: the line that comes next, and the numbers that
registers hold. -/
structure Moment where
  line : Nat
  values : Register → BitVec 32

def Operand.value (values : Register → BitVec 32) : Operand → BitVec 32
  | register r => values r
  | number n => BitVec.ofInt 32 n

namespace FunctionCode

/-- One step of an execution, which ends with the call of the handler. Only comparisons with `eq`
and branches are described; the values that other lines give their results are left open, so that
the step of any machine is one of these. -/
structure Moves (f : FunctionCode) (i : Instr) (s s' : Moment) : Prop where
  here : f.lines[s.line]? = some i
  flows : f.Flows s.line s'.line
  returns : ∀ result arguments, i ≠ .call result zeroDivisionHandler arguments
  keeps : ∀ r, i.result? ≠ some r → s'.values r = s.values r
  compares : ∀ r left right, i = .compare r .eq left right →
    s'.values r = if left.value s.values = right.value s.values then 1 else 0
  decides : ∀ c onTrue onFalse, i = .branch c onTrue onFalse →
    ∃ l, (if s.values c = 0 then onFalse else onTrue) = some l ∧ f.lines[s'.line]? = some (.label l)

/-- The execution of a call can come to this moment. -/
inductive Reaches (f : FunctionCode) : Moment → Prop
  | start (values : Register → BitVec 32) : f.Reaches ⟨0, values⟩
  | step {i : Instr} {s s' : Moment} (before : f.Reaches s) (moves : f.Moves i s s') : f.Reaches s'

/-! ### Behind a guard -/

section Guard

variable {f : FunctionCode} {pre after : List Instr} {isZero divisor : Register}
  {error divide : Label} {r : Register} {opcode : Opcode} {dividend : Operand}

/-- A guard and its division, with what stands around them in the function. -/
structure Guard (f : FunctionCode) (pre : List Instr) (isZero divisor : Register)
    (error divide : Label)
    (r : Register) (opcode : Opcode) (dividend : Operand) (after : List Instr) : Prop where
  lines : f.lines = pre ++ (guardLines isZero divisor error divide ++
    .compute r opcode dividend (.register divisor) :: after)
  ne : isZero ≠ divisor
  labels : error ≠ divide
  divide : divide ∉ targetsOf (pre ++ after)

namespace Guard

theorem getElem? (h : f.Guard pre isZero divisor error divide r opcode dividend after) (k : Nat) :
    f.lines[pre.length + k]? = (guardLines isZero divisor error divide ++
      .compute r opcode dividend (.register divisor) :: after)[k]? := by
  rw [h.lines, getElem?_append_length]

/-- Only two lines go to the division. -/
theorem line_of_target (h : f.Guard pre isZero divisor error divide r opcode dividend after)
    {m : Nat} {i : Instr} (here : f.lines[m]? = some i) (target : divide ∈ i.targets) :
    m = pre.length + 1 ∨ m = pre.length + 4 := by
  have split : f.lines = (pre ++ [.compare isZero .eq (.register divisor) (.number 0)]) ++
      .branch isZero (some error) (some divide)
        :: ([.label error, .call none zeroDivisionHandler []] ++ .jump (some divide)
        :: .label divide :: .compute r opcode dividend (.register divisor) :: after) := by
    rw [h.lines, append_assoc]
    rfl
  have others : divide ∉ targetsOf (pre ++ [.compare isZero .eq (.register divisor) (.number 0)] ++
      [.label error, .call none zeroDivisionHandler []] ++
      .label divide :: .compute r opcode dividend (.register divisor) :: after) := by
    simpa [Instr.targets] using h.divide
  have found := Backpatch.line_of_target split others here target
  rwa [length_append] at found

/-- What holds at each line of the guard: the comparison is true if the divisor is zero, the call
does not come back, and behind the branch the divisor is not zero. -/
structure Holds (pre : List Instr) (isZero divisor : Register) (s : Moment) : Prop where
  compared : s.line = pre.length + 1 → s.values isZero = 0 → s.values divisor ≠ 0
  called : s.line ≠ pre.length + 4
  entered : s.line = pre.length + 5 → s.values divisor ≠ 0
  divides : s.line = pre.length + 6 → s.values divisor ≠ 0

theorem holds_of_moves (h : f.Guard pre isZero divisor error divide r opcode dividend after)
    {i : Instr} {s s' : Moment} (holds : Holds pre isZero divisor s) (moves : f.Moves i s s') :
    Holds pre isZero divisor s' := by
  -- One line after the other: each is reached from the one before it, but for the label of the
  -- division, which is reached from the branch.
  constructor
  · intro line
    have there : f.lines[s'.line]? = some (.branch isZero (some error) (some divide)) := by
      rw [line, h.getElem?]
      rfl
    have eq := moves.flows.line_eq there rfl
    have here := moves.here
    rw [show s.line = pre.length + 0 by omega, h.getElem?] at here
    cases here
    intro zero
    have outcome := moves.compares _ _ _ rfl
    rw [moves.keeps divisor (fun eq => h.ne (Option.some.inj eq))]
    rw [zero] at outcome
    intro isZero
    simp [Operand.value, isZero] at outcome
  · intro line
    have there : f.lines[s'.line]? = some (.jump (some divide)) := by
      rw [line, h.getElem?]
      rfl
    have eq := moves.flows.line_eq there rfl
    have here := moves.here
    rw [show s.line = pre.length + 3 by omega, h.getElem?] at here
    cases here
    exact moves.returns _ _ rfl
  · intro line
    have there : f.lines[s'.line]? = some (.label divide) := by
      rw [line, h.getElem?]
      rfl
    have source : s.line = pre.length + 1 := by
      rcases moves.flows.cases moves.here with ⟨eq, goesOn⟩ | ⟨l, target, label⟩
      · exact absurd (show s.line = pre.length + 4 by omega) holds.called
      · rw [there] at label
        cases label
        exact (h.line_of_target moves.here target).resolve_right holds.called
    have here := moves.here
    rw [source, h.getElem?] at here
    cases here
    obtain ⟨l, chosen, label⟩ := moves.decides _ _ _ rfl
    rw [there] at label
    cases label
    rw [moves.keeps divisor (fun eq => by cases eq)]
    refine holds.compared source ?_
    split at chosen
    · rename_i zero
      exact zero
    · exact absurd (Option.some.inj chosen) h.labels
  · intro line
    have there : f.lines[s'.line]? = some (.compute r opcode dividend (.register divisor)) := by
      rw [line, h.getElem?]
      rfl
    have eq := moves.flows.line_eq there rfl
    have here := moves.here
    rw [show s.line = pre.length + 5 by omega, h.getElem?] at here
    cases here
    rw [moves.keeps divisor (fun eq => by cases eq)]
    exact holds.entered (by omega)

theorem divisor_ne_zero (h : f.Guard pre isZero divisor error divide r opcode dividend after)
    {s : Moment}
    (reaches : f.Reaches s) (here : s.line = pre.length + 6) : s.values divisor ≠ 0 := by
  have holds : Holds pre isZero divisor s := by
    clear here
    induction reaches with
    | start values => exact ⟨by simp, by simp, by simp, by simp⟩
    | step _ moves ih => exact h.holds_of_moves ih moves
  exact holds.divides here

end Guard

end Guard

theorem divisor_ne_zero_of_reaches {f : FunctionCode} (structured : f.Structured)
    (distinct : (labelsOf f.written).Nodup) {s : Moment} (reaches : f.Reaches s) {r : Register}
    {opcode : Opcode} {dividend divisor : Operand}
    (here : f.lines[s.line]? = some (.compute r opcode dividend divisor))
    (division : (Instr.compute r opcode dividend divisor).isDivision = true) :
    divisor.value s.values ≠ 0 := by
  obtain ⟨before, after, lines, length⟩ := exists_append_of_getElem? here
  have written : f.written = before ++ .compute r opcode dividend divisor
      :: (after ++ [.blank]) := by
    unfold FunctionCode.written
    rw [lines, append_assoc]
    rfl
  obtain ⟨pre, _, _, _, isZero, divisor', error, divide, eq, rfl, ne, -, outside⟩ :=
    (structured.within distinct _ _ _ written).1 division
  cases eq
  have guard : f.Guard pre isZero divisor' error divide r opcode dividend after := by
    refine ⟨by rw [lines, append_assoc], ne, ?_, ?_⟩
    · rw [written, labelsOf_append, labelsOf_append, labelsOf_guardLines, nodup_append,
        nodup_append] at distinct
      exact fun eq => (nodup_cons.mp distinct.1.2.1).1 (mem_singleton.mpr eq)
    · rw [List.append_nil, ← append_assoc, targetsOf_append] at outside
      exact fun mem => outside (mem_append_left _ mem)
  refine guard.divisor_ne_zero reaches ?_
  rw [← length, length_append]
  rfl

end FunctionCode

/-- Every division of a compiled program is preceded by its guard, and no other branch of the output
goes to one of the two labels of the guard. So an execution that comes to a division, without a
return of the handler on its way, comes there with a divisor other than zero. -/
theorem Program.compile_guards {p : Program} {options : Options} {text : String}
    (h : p.compile options = .ok text) :
    ∃ b, p.emit options = .ok b ∧ b.render = .ok text ∧ (∀ before r opcode dividend divisor after,
        b.instrs = before ++ .compute r opcode dividend divisor :: after → opcode = .sdiv ∨
          opcode = .udiv →
        ∃ pre isZero error divide, before = pre ++ [.compare isZero .eq divisor (.number 0),
            .branch isZero (some error) (some divide), .label error, .call none "error_zero_div" [],
            .jump (some divide), .label divide] ∧ ∀ i ∈ pre ++ after, error ∉ i.targets ∧
              divide ∉ i.targets) ∧
      b.instrs = b.functions.flatMap FunctionCode.written ∧
      ∀ f ∈ b.functions, ∀ s, f.Reaches s → ∀ r opcode dividend divisor,
        f.lines[s.line]? = some (.compute r opcode dividend divisor) →
        opcode = .sdiv ∨ opcode = .udiv → divisor.value s.values ≠ 0 := by
  obtain ⟨fs, registers, b, compiled, rendered⟩ := compiled_of_compile h
  have distinct := compiled.nodup_labels
  have isDivision {r opcode dividend divisor} (h : opcode = .sdiv ∨ opcode = .udiv) :
      (Instr.compute r opcode dividend divisor).isDivision = true := by
    rcases h with rfl | rfl
    · rfl
    · rfl
  refine ⟨b, compiled.emitted, rendered, ?_, compiled.instrs_functions, ?_⟩
  · intro before r opcode dividend divisor after lines division
    rw [compiled.instrs_functions] at lines distinct
    obtain ⟨pre, _, _, _, isZero, divisor', error, divide, eq, guard, -, noError, noDivide⟩ :=
      (within_functions compiled.structured distinct _ _ _ lines).1 (isDivision division)
    cases eq
    rw [List.append_nil] at noError noDivide
    refine ⟨pre, isZero, error, divide, guard, fun i mem => ⟨fun target => ?_, fun target => ?_⟩⟩
    · exact noError (mem_flatMap.mpr ⟨i, mem, target⟩)
    · exact noDivide (mem_flatMap.mpr ⟨i, mem, target⟩)
  · intro f mem s reaches r opcode dividend divisor here division
    exact FunctionCode.divisor_ne_zero_of_reaches (compiled.structured f mem)
      (compiled.nodup_function mem) reaches here (isDivision division)

/-- The code of the example divides, in the thirty-first line. -/
theorem Program.countdown_divides {b : CodeBuffer} (emitted : countdown.emit {} = .ok b) :
    b.instrs[30]? = some (.compute (.temp 6) .sdiv (.register (.temp 3))
      (.register (.temp 4))) := by
  have line : (countdown.elaborate.toOption.bind fun q => ((runtimeCode true ++
      (Routine.placed q.1 { registers := q.2 }).map fun r => r.1.function r.2).flatMap
        FunctionCode.written)[30]?)
      = some (.compute (.temp 6) .sdiv (.register (.temp 3)) (.register (.temp 4))) := by
    decide +kernel
  obtain ⟨text, compiles⟩ := countdown_compiles
  obtain ⟨fs, registers, b', compiled, -⟩ := compiled_of_compile compiles
  obtain rfl : b' = b := Except.ok.inj (compiled.emitted.symm.trans emitted)
  rw [compiled.elaborated] at line
  rw [compiled.instrs_eq]
  exact line

theorem Program.countdown_guards :
    ∃ text b before after pre isZero error divide, countdown.compile {} = .ok text ∧
      countdown.emit {} = .ok b ∧
      b.instrs = before ++ .compute (.temp 6) .sdiv (.register (.temp 3))
        (.register (.temp 4)) :: after ∧
      before = pre ++ [.compare isZero .eq (.register (.temp 4)) (.number 0),
        .branch isZero (some error) (some divide), .label error, .call none "error_zero_div" [],
        .jump (some divide), .label divide] ∧ ∀ i ∈ pre ++ after, error ∉ i.targets ∧
          divide ∉ i.targets := by
  obtain ⟨text, compiled⟩ := countdown_compiles
  obtain ⟨b, emitted, -, guards, -⟩ := Program.compile_guards compiled
  obtain ⟨before, after, lines, -⟩ := exists_append_of_getElem? (countdown_divides emitted)
  obtain ⟨pre, isZero, error, divide, guard, outside⟩ :=
    guards before _ _ _ _ after lines (.inl rfl)
  exact ⟨text, b, before, after, pre, isZero, error, divide, compiled, emitted, lines,
    guard, outside⟩

end Backpatch
