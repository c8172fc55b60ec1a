import Backpatch.Proofs.Output.Symbols

/-!
# Options

The options decide which prelude stands above the code and how wide its indentation is, and nothing
else (`Program.compile_options`). The prelude moves every line of the code, and with it every record
of a hole, so the emissions under two options have no state in common. But each of them writes the
code of the routines behind its prelude, and that code is the same for both.
-/

namespace Backpatch

open List

/-! ## Lines with their levels -/

theorem Instr.level_map_atLevel (is : List Instr) (level : Nat) :
    ∀ line ∈ is.map (Instr.atLevel level), line.instr.isLabel = true → line.level = 0 := by
  refine forall_mem_map.mpr fun i _ h => ?_
  rw [Instr.atLevel_instr] at h
  cases i with
  | label l => rfl
  | _ => cases h

theorem FunctionCode.level_laidOut (f : FunctionCode) (level : Nat) :
    ∀ line ∈ f.laidOut level, line.instr.isLabel = true → line.level = 0 :=
  forall_mem_append.mpr ⟨forall_mem_append.mpr
    ⟨Instr.level_map_atLevel _ _, Instr.level_map_atLevel _ _⟩, Instr.level_map_atLevel _ _⟩

theorem CodeBuffer.indentWidth_addFunction (b : CodeBuffer) (head : Instr) (body : List Instr)
    (globals : List Global) : (b.addFunction head body globals).indentWidth = b.indentWidth := by
  simp [addFunction, append, increaseIndent, decreaseIndent]

theorem Routine.indentWidth_addAll (fs : List Routine) (s : NameSupply) (b : CodeBuffer) :
    (addAll fs s b).2.indentWidth = b.indentWidth := by
  induction fs generalizing s b with
  | nil => rfl
  | cons f fs ih => exact (ih _ _).trans (b.indentWidth_addFunction _ _ _)

theorem Options.indentWidth_prelude (options : Options) :
    options.prelude.indentWidth = options.indentWidth.toNat := by
  obtain ⟨emitRuntime, width⟩ := options
  cases emitRuntime <;> rfl

/-! ## One outcome for all options -/

namespace Program

variable {p : Program} {fs : List Routine} {registers : Nat}

theorem compile_of_elaborate_error {failure : Failure} (h : p.elaborate = .error failure)
    (options : Options) : p.compile options = .error failure := by
  have follows := p.analyze_follows options
  rw [h] at follows
  unfold compile emit
  cases failure with
  | semantic e =>
    obtain ⟨c, analyzed⟩ := follows
    rw [analyzed]
    rfl
  | internal f =>
    have analyzed : p.analyze (.start options) = .error f := follows
    rw [analyzed]
    rfl

theorem checked_of_elaborate (h : p.elaborate = .ok (fs, registers)) (options : Options) :
    ∃ tree c, p.analyze (.start options) = .ok (.ok tree, c) ∧
      Checked options tree c (fs, registers) := by
  have follows := p.analyze_follows options
  rw [h] at follows
  exact follows

/-- The complaint about a function that cannot be written is about its head, which is not
indented. -/
theorem compile_of_unclean (h : p.elaborate = .ok (fs, registers)) {f : Routine}
    (first : fs.find? (fun f => !decide (Clean f.name)) = some f) (options : Options) :
    p.compile options = .error (.internal (.strayPlaceholder f.head.text)) := by
  obtain ⟨tree, c, analyzed, checked⟩ := checked_of_elaborate h options
  rw [compile_of_analyze analyzed, checked.generate_refused h first]
  rfl

theorem compile_of_clean (h : p.elaborate = .ok (fs, registers)) (clean : ∀ f ∈ fs, Clean f.name)
    (options : Options) : ∃ b, p.Compiled options fs registers b ∧
      p.compile options = .ok b.text := by
  obtain ⟨tree, c, analyzed, checked⟩ := checked_of_elaborate h options
  obtain ⟨exits, c', generated, -, buffer⟩ := checked.generate_ok h clean
  obtain ⟨globals, chain, -⟩ := elaborate_chain h
  have closed : c'.buffer.openRecords = [] := by
    rw [buffer, Routine.openRecords_addAll chain.scoped, options.settled_prelude.2]
  refine ⟨c'.buffer, ⟨h, ?_, buffer⟩, ?_⟩
  · unfold emit
    rw [analyzed]
    dsimp only
    rw [generated]
    rfl
  · rw [compile_of_analyze analyzed, generated]
    show (c'.buffer.render).mapError _ = _
    rw [CodeBuffer.render_of_openRecords closed]
    rfl

/-- Under all options a program fails alike, or under all of them its code is the same below the
prelude: there are string constants and lines, each with its level, that follow the globals and the
functions of the prelude which the options choose. All lines are indented as the options say, apart
from the labels. -/
theorem compile_options (p : Program) :
    (∃ failure, ∀ options, p.compile options = .error failure) ∨
      ∃ (constants : List Global) (lines : List Line),
        (∀ g ∈ constants, ∃ n, g.constant? = some (.string n)) ∧
        (∀ line ∈ lines, line.instr.isLabel = true → line.level = 0) ∧
        ∀ options, ∃ b, p.emit options = .ok b ∧ p.compile options = .ok b.text ∧
          b.globalTexts = (preludeGlobals options.emitRuntime ++ constants).map Global.text ∧
          b.lineTexts = ((runtimeCode options.emitRuntime).flatMap (·.laidOut 0) ++ lines).map
            fun line => String.ofList (replicate (line.level * options.indentWidth.toNat) ' ')
              ++ line.instr.text := by
  cases elaborated : p.elaborate with
  | error failure => exact .inl ⟨failure, compile_of_elaborate_error elaborated⟩
  | ok result =>
    obtain ⟨fs, registers⟩ := result
    by_cases clean : ∀ f ∈ fs, Clean f.name
    · let placed := Routine.placed fs { registers := registers }
      refine .inr ⟨placed.flatMap fun q => (q.1.code q.2).globals,
        (placed.map fun q => q.1.function q.2).flatMap (·.laidOut 0), ?_, ?_, fun options => ?_⟩
      · obtain ⟨high, numbered⟩ := Routine.numbered_placed fs { registers := registers }
        exact numbered.constants
      · intro line mem
        obtain ⟨f, -, mem⟩ := mem_flatMap.mp mem
        exact f.level_laidOut 0 line mem
      · obtain ⟨b, compiled, ok⟩ := compile_of_clean elaborated clean options
        refine ⟨b, compiled.emitted, ok, ?_, ?_⟩
        · unfold CodeBuffer.globalTexts
          rw [compiled.buffer, Routine.globals_addAll, options.globals_prelude]
        · unfold CodeBuffer.lineTexts
          rw [compiled.lines_eq, compiled.buffer, Routine.indentWidth_addAll,
            options.indentWidth_prelude, flatMap_append]
          rfl
    · have unclean : ∃ f ∈ fs, ¬Clean f.name := by simpa using clean
      obtain ⟨f, first⟩ := Routine.exists_first_unclean unclean
      exact .inl ⟨_, compile_of_unclean elaborated first⟩

end Program

end Backpatch
