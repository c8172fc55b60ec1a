import Backpatch.Proofs.Core.Availability
import Backpatch.Proofs.Output.Paths

/-!
# Definitions come before uses

On every way through a function of a compiled program, a register has its value before it is read. A
value that is chosen by where control comes from is the first one behind its label, names exactly
the blocks that branch there, and each of the two registers that it chooses from has its value at
the end of its block (`Program.compile_dominance`).
-/

namespace Backpatch

open List

/-! ## Registers at the lines of a list -/

namespace Promises

variable {A : Promises} {D : Registers} {lines : List Instr} {n : Nat} {i : Instr}

/-- The registers that are there when control comes to a line: those that a label promises, or else
those that the lines before leave. -/
def arriving (A : Promises) (D : Registers) (lines : List Instr) (n : Nat) : Registers :=
  match lines[n]?.bind Instr.label? with
  | some l => A l
  | none => A.state D (lines.take n)

theorem arriving_label {l : Label} (here : lines[n]? = some (.label l)) :
    A.arriving D lines n = A l := by
  unfold arriving
  rw [here]
  rfl

theorem arriving_line (here : lines[n]? = some i) (notLabel : i.label? = none) :
    A.arriving D lines n = A.state D (lines.take n) := by
  unfold arriving
  rw [here, Option.bind_some, notLabel]

theorem Checks.fits (checks : A.Checks D lines) (here : lines[n]? = some i) :
    A.Fits (A.state D (lines.take n)) i := by
  obtain ⟨before, after, rfl, rfl⟩ := exists_append_of_getElem? here
  rw [take_left]
  exact (checks_append.mp checks).2.1

theorem state_take_succ (here : lines[n]? = some i) :
    A.state D (lines.take (n + 1)) = A.after (A.state D (lines.take n)) i := by
  obtain ⟨before, after, rfl, rfl⟩ := exists_append_of_getElem? here
  rw [append_cons, take_left' (by simp), append_assoc, take_left, state_append]
  rfl

/-- What a label promises is there. -/
theorem Checks.state_of_arriving (checks : A.Checks D lines) {r : Register}
    (h : A.arriving D lines n r) : A.state D (lines.take n) r := by
  unfold arriving at h
  cases here : lines[n]? with
  | none =>
    rw [here] at h
    exact h
  | some i =>
    rw [here, Option.bind_some] at h
    cases label : i.label? with
    | none =>
      rw [label] at h
      exact h
    | some l =>
      rw [label] at h
      have brings := (checks.fits here).brings l
      rw [label] at brings
      exact brings mem_cons_self r h

end Promises

variable {i : Instr} {l : Label}

theorem Instr.eq_label (h : i.label? = some l) : i = .label l := by
  cases i with
  | label k => exact congrArg _ (Option.some.inj h)
  | _ => cases h

theorem Instr.label?_of_mem_targets (h : l ∈ i.targets) : i.label? = none := by
  cases i with
  | label k => cases h
  | _ => rfl

/-! ## Ways -/

/-- The line gives the register a value; the head of a function gives the parameters theirs. -/
def Instr.Defines (i : Instr) (r : Register) : Prop :=
  i.result? = some r ∨ ∃ result name parameters k, i = .define result name parameters ∧
    k < parameters.length ∧ r = .argument k

namespace FunctionCode

/-- Control can come from the first line to the line `n`, and passes these lines before it, the last
one first. -/
inductive Path (f : FunctionCode) : List Nat → Nat → Prop
  | start : f.Path [] 0
  | step {passed : List Nat} {m n : Nat} (path : f.Path passed m) (flows : f.Flows m n) :
      f.Path (m :: passed) n

/-- One of the lines gives the register a value. -/
def DefinedIn (f : FunctionCode) (passed : List Nat) (r : Register) : Prop :=
  ∃ m ∈ passed, ∃ i, f.lines[m]? = some i ∧ i.Defines r

/-- The block that the line belongs to, by its label; the lines before the first label make up a
block without one. -/
def blockOf (f : FunctionCode) (n : Nat) : Option Label :=
  (labelsOf (f.lines.take (n + 1))).getLast?

variable {f : FunctionCode} {A : Promises} {D : Registers} {passed : List Nat}
  {m n : Nat} {i : Instr}

variable {r : Register}

theorem arriving_of_flows (checks : A.Checks D f.lines) (flows : f.Flows m n)
    (h : A.arriving D f.lines n r) :
    A.arriving D f.lines m r ∨ ∃ i, f.lines[m]? = some i ∧ i.result? = some r := by
  cases flows with
  | next here goesOn inside =>
    rename_i i
    have leaves := checks.state_of_arriving h
    rw [Promises.state_take_succ here] at leaves
    unfold Promises.after at leaves
    cases label : i.label? with
    | some l =>
      rw [label] at leaves
      rw [Instr.eq_label label] at here
      rw [Promises.arriving_label here]
      exact .inl leaves
    | none =>
      rw [label, goesOn] at leaves
      rw [Promises.arriving_line here label]
      exact leaves.imp_right fun result => ⟨i, here, result⟩
  | branch here target there =>
    rename_i i l
    rw [Promises.arriving_label there] at h
    rw [Promises.arriving_line here (Instr.label?_of_mem_targets target)]
    exact .inl ((checks.fits here).brings l (mem_append_right _ target) r h)

/-- However control has come to a line, the registers that are there have got their values on the
way, or are parameters. -/
theorem Path.arriving (checks : A.Checks D f.lines) (path : f.Path passed n)
    (h : A.arriving D f.lines n r) :
    D r ∨ ∃ m ∈ passed, ∃ i, f.lines[m]? = some i ∧ i.result? = some r := by
  induction path with
  | start => exact .inl (checks.state_of_arriving h)
  | step path flows ih =>
    rename_i passed m n
    rcases arriving_of_flows checks flows h with earlier | ⟨i, here, result⟩
    · rcases ih earlier with given | ⟨k, mem, found⟩
      · exact .inl given
      · exact .inr ⟨k, mem_cons_of_mem _ mem, found⟩
    · exact .inr ⟨m, mem_cons_self, i, here, result⟩

theorem Path.zero_mem (path : f.Path passed n) (h : n ≠ 0) : 0 ∈ passed := by
  induction path with
  | start => exact absurd rfl h
  | step path flows ih =>
    rename_i passed m n
    by_cases first : m = 0
    · exact first ▸ mem_cons_self
    · exact mem_cons_of_mem _ (ih first)

/-- The promises of the body are kept in the whole function, the head of which gives the
parameters. -/
theorem Structured.exists_checks (h : f.Structured) (distinct : (labelsOf f.body).Nodup) :
    ∃ A : Promises, A.Checks (Routine.Entry f.parameters.length) f.lines := by
  obtain ⟨A, checks⟩ := Leaves.exists_checks h distinct
  refine ⟨A, ⟨⟨forall_mem_nil _, forall_mem_nil _, forall_mem_nil _⟩, ?_⟩⟩
  refine (checks.mono fun r hr => ?_).append (fun _ => id) ⟨⟨?_, ?_, ?_⟩, trivial⟩
  · exact .inl hr
  · exact forall_mem_nil _
  · exact forall_mem_nil _
  · exact forall_mem_nil _

/-- A register that is there at a line inside the function has got its value on the way. -/
theorem Path.definedIn (path : f.Path passed n)
    (checks : A.Checks (Routine.Entry f.parameters.length) f.lines)
    (inside : n ≠ 0) (here : f.lines[n]? = some i) (notLabel : i.label? = none)
    (h : A.state (Routine.Entry f.parameters.length) (f.lines.take n) r) :
    f.DefinedIn passed r := by
  rw [← Promises.arriving_line here notLabel] at h
  rcases path.arriving checks h with ⟨k, bound, rfl⟩ | ⟨m, mem, j, there, result⟩
  · exact ⟨0, path.zero_mem inside, f.head, rfl, .inr ⟨_, _, _, k, rfl, bound, rfl⟩⟩
  · exact ⟨m, mem, j, there, .inl result⟩

/-- A line that reads registers is reached only after these have got their values. -/
theorem Path.uses (path : f.Path passed n)
    (checks : A.Checks (Routine.Entry f.parameters.length) f.lines)
    (here : f.lines[n]? = some i) (mem : r ∈ i.uses) : f.DefinedIn passed r := by
  have inside : n ≠ 0 := by
    rintro rfl
    cases here
    cases mem
  have notLabel : i.label? = none := by
    cases i with
    | label l => cases mem
    | _ => rfl
  exact path.definedIn checks inside here notLabel ((checks.fits here).uses r mem)

/-! ## Blocks and choices -/

section Block

variable {xs ys : List Instr} {l k : Label} {t : Instr}

theorem blockOf_behind (lines : f.lines = xs ++ .label l :: t :: ys) (notLabel : t.label? = none) :
    f.blockOf (xs.length + 1) = some l := by
  have taken : f.lines.take (xs.length + 2) = xs ++ [.label l, t] := by
    have split : xs ++ .label l :: t :: ys = (xs ++ [.label l, t]) ++ ys := by simp
    rw [lines, split, take_left' (by simp)]
  unfold blockOf
  rw [taken]
  simp [notLabel]

/-- A block of one line behind its label ends with this line. -/
theorem eq_of_blockOf (distinct : (labelsOf f.lines).Nodup)
    (lines : f.lines = xs ++ .label l :: t :: .label k :: ys) (here : f.lines[n]? = some i)
    (block : f.blockOf n = some l) (ends : i.isTerminator = true) : n = xs.length + 1 := by
  have labels : labelsOf f.lines = labelsOf xs ++ l :: (t.label?.toList ++ k :: labelsOf ys) := by
    rw [lines]
    simp
  rw [labels, nodup_append] at distinct
  obtain ⟨-, distinct, disjoint⟩ := distinct
  have mem : l ∈ labelsOf (f.lines.take (n + 1)) := mem_of_getLast? block
  have notBefore : xs.length ≤ n := by
    refine Nat.le_of_not_lt fun before => ?_
    rw [lines, take_append_of_le_length before] at mem
    have inside : l ∈ labelsOf xs := ((take_sublist _ _).filterMap _).mem mem
    exact disjoint l inside l mem_cons_self rfl
  obtain ⟨m, rfl⟩ := Nat.exists_eq_add_of_le notBefore
  obtain _ | _ | m := m
  · rw [lines, getElem?_append_length] at here
    cases here
    cases ends
  · rfl
  · have taken : f.lines.take (xs.length + (m + 1 + 1) + 1)
        = (xs ++ [.label l, t]) ++ .label k :: ys.take m := by
      have split : xs ++ .label l :: t :: .label k :: ys
        = (xs ++ [.label l, t]) ++ .label k :: ys := by simp
      have length : (xs ++ [.label l, t]).length = xs.length + 2 := length_append
      have rest : xs.length + (m + 1 + 1) + 1 - (xs ++ [.label l, t]).length = m + 1 := by omega
      rw [lines, split, take_append, take_of_length_le (by omega), rest]
      rfl
    unfold blockOf at block
    rw [taken, labelsOf_append, getLast?_append_of_ne_nil _ (by simp)] at block
    have last : l ∈ k :: labelsOf (ys.take m) := mem_of_getLast? block
    have later : l ∈ t.label?.toList ++ k :: labelsOf ys := by
      refine mem_append_right _ ?_
      rcases mem_cons.mp last with eq | last
      · exact eq ▸ mem_cons_self
      · exact mem_cons_of_mem _ (((take_sublist _ _).filterMap _).mem last)
    exact absurd later (nodup_cons.mp distinct).1

end Block

/-- What a label promises is there at the end of a block of one line. -/
theorem Path.definedIn_block (path : f.Path passed n)
    (checks : A.Checks (Routine.Entry f.parameters.length) f.lines)
    (distinct : (labelsOf f.lines).Nodup) {xs ys : List Instr} {l k : Label} {t : Instr}
    (lines : f.lines = xs ++ .label l :: t :: .label k :: ys)
    (here : f.lines[n]? = some i) (block : f.blockOf n = some l) (ends : i.isTerminator = true)
    (promised : A l r) :
    f.DefinedIn passed r := by
  obtain rfl := eq_of_blockOf distinct lines here block ends
  have label : f.lines[xs.length]? = some (.label l) := by
    rw [lines]
    exact getElem?_append_length 0
  have notLabel : i.label? = none := by
    cases i with
    | label => cases ends
    | _ => rfl
  refine path.definedIn checks (Nat.succ_ne_zero _) here notLabel ?_
  rw [Promises.state_take_succ label]
  exact promised

/-- What is claimed of a choice that stands in the line `n`. -/
structure Chooses (f : FunctionCode) (n : Nat) (left : Operand) (leftFrom : Label) (right : Operand)
    (rightFrom join : Label) : Prop where
  /-- The line before is the label. -/
  first : ∃ m, n = m + 1 ∧ f.lines[m]? = some (.label join)
  distinct : leftFrom ≠ rightFrom
  /-- The blocks that branch to the label are the two that are named. -/
  blocks : ∀ block, (∃ m i, f.lines[m]? = some i ∧ join ∈ i.targets ∧ f.blockOf m = block) ↔
    block = some leftFrom ∨ block = some rightFrom
  /-- On every way to the end of one of the blocks, its register gets a value. -/
  given : ∀ source ∈ [(leftFrom, left), (rightFrom, right)], ∀ r ∈ source.2.registers, ∀ passed m i,
    f.Path passed m → f.lines[m]? = some i → f.blockOf m = some source.1 → i.isTerminator = true →
      f.DefinedIn passed r

theorem Structured.chooses (h : f.Structured) (distinct : (labelsOf f.written).Nodup)
    {type : IrType} {left right : Operand} {leftFrom rightFrom : Label}
    (here : f.lines[n]? = some (.phi r type left leftFrom right rightFrom)) :
    ∃ join, f.Chooses n left leftFrom right rightFrom join := by
  obtain ⟨before, after, lines, rfl⟩ := exists_append_of_getElem? here
  have written : f.written = before ++ .phi r type left leftFrom right rightFrom
      :: (after ++ [.blank]) := by
    unfold FunctionCode.written
    rw [lines, append_assoc]
    rfl
  obtain ⟨pre, middle, join, rfl, ⟨next, rest, behind⟩, others⟩ :=
    (h.within distinct _ _ _ written).2 _ _ _ _ _ _ rfl
  -- The same lines, taken apart at either block and at both of its jumps to the join.
  have atLeft : f.lines = pre ++ .label leftFrom :: .jump (some join) :: .label next ::
      (rest ++ .jump (some join) :: .label join :: .phi r type left leftFrom right rightFrom
        :: after) := by
    rw [lines, ← cons_append, ← behind]
    simp
  have atRight : f.lines = (pre ++ .label leftFrom :: .jump (some join) :: middle)
      ++ .label rightFrom ::
      .jump (some join) :: .label join :: .phi r type left leftFrom right rightFrom :: after := by
    rw [lines]
    simp
  have targets : f.lines = (pre ++ [.label leftFrom]) ++ .jump (some join) ::
      ((middle ++ [.label rightFrom]) ++ .jump (some join) :: .label join ::
        .phi r type left leftFrom right rightFrom :: after) := by
    rw [lines]
    simp
  have others : join ∉ targetsOf (pre ++ [.label leftFrom] ++ (middle ++ [.label rightFrom]) ++
      .label join :: .phi r type left leftFrom right rightFrom :: after) := by
    simp [Instr.targets] at others ⊢
    exact ⟨others.1, others.2.1, others.2.2⟩
  have distinctLines : (labelsOf f.lines).Nodup :=
    ((sublist_append_left _ _).filterMap _).nodup distinct
  have leftBlock := blockOf_behind atLeft rfl
  have rightBlock := blockOf_behind atRight rfl
  refine ⟨join, ?_, ?_, ?_, ?_⟩
  · refine ⟨(pre ++ .label leftFrom :: .jump (some join) :: middle).length + 2, length_append, ?_⟩
    rw [atRight, getElem?_append_length]
    rfl
  · rintro rfl
    rw [targets] at distinctLines
    simp [nodup_append] at distinctLines
  · intro block
    constructor
    · rintro ⟨m, i, here, target, rfl⟩
      rcases line_of_target targets others here target with rfl | rfl
      · rw [length_append]
        exact .inl leftBlock
      · have line : (pre ++ [Instr.label leftFrom]).length + 1 +
            (middle ++ [Instr.label rightFrom]).length
            = (pre ++ Instr.label leftFrom :: .jump (some join) :: middle).length + 1 := by
          simp only [length_append, length_cons, length_nil]
          omega
        rw [line]
        exact .inr rightBlock
    · rintro (rfl | rfl)
      · refine ⟨pre.length + 1, .jump (some join), ?_, mem_cons_self, leftBlock⟩
        rw [atLeft, getElem?_append_length]
        rfl
      · refine ⟨_ + 1, .jump (some join), ?_, mem_cons_self, rightBlock⟩
        rw [atRight, getElem?_append_length]
        rfl
  -- What is chosen is promised where its block ends, not where the choice is made.
  · obtain ⟨A, checks⟩ := h.exists_checks (f.labelsOf_written ▸ distinct)
    have promised := Promises.fits_phi.mp (checks.fits here)
    simp only [forall_mem_cons]
    refine ⟨fun r mem passed m i path here block ends => ?_,
      fun r mem passed m i path here block ends => ?_, forall_mem_nil _⟩
    · exact path.definedIn_block checks distinctLines atLeft here block ends (promised.1 r mem)
    · exact path.definedIn_block checks distinctLines atRight here block ends (promised.2 r mem)

end FunctionCode

/-- On every way through a function of a compiled program from its first line to a line that reads a
register, a line has been passed that gives the register its value, be it the head of the function
for a parameter. And every choice stands behind its label, names exactly the blocks that branch
there, and chooses between registers that have their values at the end of these blocks. -/
theorem Program.compile_dominance {p : Program} {options : Options} {text : String}
    (h : p.compile options = .ok text) : ∃ b, p.emit options = .ok b ∧ b.render = .ok text ∧
      b.instrs = b.functions.flatMap FunctionCode.written ∧ ∀ f ∈ b.functions,
        (∀ passed n i r, f.Path passed n → f.lines[n]? = some i → r ∈ i.uses →
          f.DefinedIn passed r) ∧
        ∀ n r type left leftFrom right rightFrom, f.lines[n]?
          = some (.phi r type left leftFrom right rightFrom) →
          ∃ join, f.Chooses n left leftFrom right rightFrom join := by
  obtain ⟨fs, registers, b, compiled, rendered⟩ := compiled_of_compile h
  refine ⟨b, compiled.emitted, rendered, compiled.instrs_functions, fun f mem => ?_⟩
  have structured := compiled.structured f mem
  have distinct := compiled.nodup_function mem
  constructor
  · intro passed n i r path here uses
    obtain ⟨A, checks⟩ := structured.exists_checks (f.labelsOf_written ▸ distinct)
    exact path.uses checks here uses
  · intro n r type left leftFrom right rightFrom here
    exact structured.chooses distinct here

/-- A truth value that is kept is chosen in the example. -/
theorem Program.countdown_chooses {b : CodeBuffer} (emitted : countdown.emit {} = .ok b) :
    ∃ f ∈ b.functions,
      f.lines[27]? = some (.phi (.temp 16) .i32 (.number 1) (.numbered 8) (.number 0)
        (.numbered 9)) := by
  have line : (countdown.elaborate.toOption.bind fun q => (runtimeCode true ++
      (Routine.placed q.1 { registers := q.2 }).map fun r => r.1.function r.2)[4]?.bind
        (·.lines[27]?))
      = some (.phi (.temp 16) .i32 (.number 1) (.numbered 8) (.number 0) (.numbered 9)) := by
    decide +kernel
  obtain ⟨text, compiles⟩ := countdown_compiles
  obtain ⟨fs, registers, b', compiled, -⟩ := compiled_of_compile compiles
  obtain rfl : b' = b := Except.ok.inj (compiled.emitted.symm.trans emitted)
  rw [compiled.elaborated] at line
  obtain ⟨q, eq, line⟩ := Option.bind_eq_some_iff.mp line
  cases eq
  obtain ⟨f, here, line⟩ := Option.bind_eq_some_iff.mp line
  exact ⟨f, compiled.functions_eq ▸ mem_of_getElem? here, line⟩

theorem Program.countdown_dominance : ∃ text b, countdown.compile {} = .ok text ∧
      countdown.emit {} = .ok b ∧
      ∃ f ∈ b.functions, ∃ join, f.Chooses 27 (.number 1) (.numbered 8) (.number 0)
        (.numbered 9) join := by
  obtain ⟨text, compiled⟩ := countdown_compiles
  obtain ⟨b, emitted, -, -, dominance⟩ := Program.compile_dominance compiled
  obtain ⟨f, mem, line⟩ := countdown_chooses emitted
  exact ⟨text, b, compiled, emitted, f, mem, (dominance f mem).2 _ _ _ _ _ _ _ line⟩

end Backpatch
