import Backpatch.Proofs.Core.Straight
import Backpatch.Proofs.Countdown
import Backpatch.Proofs.Emission.History
import Backpatch.Proofs.Emission.Program

/-!
# Closure of placeholders

Every hole that the compilation of an accepted program leaves in a branch is filled, once. The only
internal error that an accepted program can meet is a placeholder that its source has brought along
in the name of a function (`Program.compile_closes_placeholders`).
-/

namespace Backpatch

open CodeBuffer Emission List

/-! ## Open records of the finished code -/

namespace CodeBuffer

theorem openRecords_append {b : CodeBuffer} {code : List Instr} (h : ∀ i ∈ code, i.openSlots = [])
    (globals : List Global) : (b.append code globals).openRecords = b.openRecords := by
  let lines := code.map (Instr.atLevel b.level)
  have added : ((lines.zipIdx (0 + b.lines.toList.length)).flatMap fun entry =>
      entry.1.instr.openSlots.map (PatchRecord.mk entry.2)) = [] := by
    refine flatMap_eq_nil_iff.mpr fun entry mem => ?_
    obtain ⟨i, hi, eq⟩ := mem_map.mp (fst_mem_of_mem_zipIdx mem)
    rw [← eq, Instr.atLevel_instr, h i hi, map_nil]
  unfold openRecords append
  rw [Array.toList_append, zipIdx_append, flatMap_append]
  exact (congrArg (_ ++ ·) added).trans (List.append_nil _)

theorem openRecords_addFunction {b : CodeBuffer} {head : Instr} {body : List Instr}
    (hh : head.openSlots = []) (hb : ∀ i ∈ body, i.openSlots = []) (globals : List Global) :
    (b.addFunction head body globals).openRecords = b.openRecords := by
  unfold addFunction
  rw [openRecords_append (by simp [Instr.openSlots, Instr.isOpen, Instr.target?])]
  show ((b.append [head] []).increaseIndent.append body globals).openRecords = _
  rw [openRecords_append hb]
  exact openRecords_append (forall_mem_singleton.mpr hh) []

end CodeBuffer

theorem Routine.openRecords_addAll {fs : List Routine} {limit : Nat}
    (inside : ∀ f ∈ fs, ∃ Q, f.Scoped limit Q) (s : NameSupply) (b : CodeBuffer) :
    (Routine.addAll fs s b).2.openRecords = b.openRecords := by
  induction fs generalizing s b with
  | nil => rfl
  | cons f fs ih =>
    obtain ⟨⟨Q, first⟩, rest⟩ := forall_mem_cons.mp inside
    unfold Routine.addAll
    rw [ih rest]
    exact openRecords_addFunction rfl (openSlots_code first s) _

instance (i : Instr) : Decidable i.Settled := inferInstanceAs (Decidable (_ = _))

/-- The width of the indentation is kept beside the lines. -/
theorem Options.prelude_lines (options : Options) :
    options.prelude.lines = (Options.prelude ⟨options.emitRuntime, 0⟩).lines := by
  obtain ⟨emitRuntime, width⟩ := options
  cases emitRuntime <;> rfl

/-- The prelude has neither holes nor placeholders. -/
theorem Options.settled_prelude (options : Options) :
    options.prelude.Settled ∧ options.prelude.openRecords = [] := by
  have globals : options.prelude.globals
      = (Options.prelude ⟨options.emitRuntime, 0⟩).globals := by
    obtain ⟨emitRuntime, width⟩ := options
    cases emitRuntime <;> rfl
  refine ⟨⟨?_, ?_⟩, ?_⟩
  · rw [options.prelude_lines]
    generalize options.emitRuntime = emitRuntime
    cases emitRuntime <;> decide +kernel
  · rw [globals]
    generalize options.emitRuntime = emitRuntime
    cases emitRuntime <;> decide +kernel
  · unfold openRecords
    rw [options.prelude_lines]
    cases options.emitRuntime <;> rfl

/-! ## Compilation -/

section Compilation

variable {p : Program} {options : Options} {tree : SyntaxTree} {c : Context}

/-- A program that is accepted can be elaborated, and its tree stands for the result. -/
theorem Program.checked_of_analyze (h : p.analyze (.start options) = .ok (.ok tree, c)) :
    ∃ fs registers, p.elaborate = .ok (fs, registers) ∧ Checked options tree c (fs, registers) := by
  have follows := p.analyze_follows options
  cases elaborated : p.elaborate with
  | ok result =>
    rw [elaborated] at follows
    obtain ⟨tree', c', analyzed, checked⟩ := follows
    rw [h] at analyzed
    cases analyzed
    exact ⟨result.1, result.2, rfl, checked⟩
  | error failure =>
    rw [elaborated] at follows
    cases failure with
    | semantic e =>
      obtain ⟨c', analyzed⟩ := follows
      rw [h] at analyzed
      exact absurd analyzed nofun
    | internal f =>
      have analyzed : p.analyze (.start options) = .error f := follows
      rw [h] at analyzed
      exact absurd analyzed nofun

theorem Program.compile_of_analyze (h : p.analyze (.start options) = .ok (.ok tree, c)) :
    p.compile options = ((tree.generate c options.emitRuntime).bind
      fun (_, c) => c.buffer.render).mapError .internal := by
  unfold Program.compile Program.emit
  rw [h]
  dsimp only
  cases tree.generate c options.emitRuntime with
  | error f | ok r => rfl

/-- The finished code of a program whose function names are clean: nothing is left open, every hole
has been closed once, and the text is free of placeholders. -/
theorem Program.generate_closed (h : p.analyze (.start options) = .ok (.ok tree, c))
    (clean : ∀ f ∈ p.functions, Clean f.name) :
    ∃ exits c', tree.generate c options.emitRuntime = .ok (exits, c') ∧ exits.Quiet ∧
      c'.buffer.openRecords = [] ∧ Clean c'.buffer.text ∧ ∃ created closed,
        History (c.emitPrelude options.emitRuntime).buffer created closed c'.buffer := by
  obtain ⟨fs, registers, elaborated, checked⟩ := checked_of_analyze h
  have names := Program.elaborate_names elaborated
  have cleanNames : ∀ f ∈ fs, Clean f.name := by
    intro f mem
    have here : f.name ∈ p.functions.map FunctionDef.name := names ▸ mem_map_of_mem mem
    obtain ⟨g, hg, eq⟩ := mem_map.mp here
    exact eq ▸ clean g hg
  obtain ⟨exits, c', generated, quiet, buffer⟩ := checked.generate_ok elaborated cleanNames
  obtain ⟨settled, closed⟩ := options.settled_prelude
  obtain ⟨globals, chain, -⟩ := Program.elaborate_chain elaborated
  have none : c'.buffer.openRecords = [] := by
    rw [buffer, Routine.openRecords_addAll chain.scoped, closed]
  -- What the emission did is a history of the buffer.
  have history : ∃ created closed, History options.prelude created closed c'.buffer := by
    obtain ⟨nodes, -, -, eq⟩ := checked.generate_eq
    rw [generated] at eq
    cases ran : emitFunctions nodes ⟨{ registers := registers }, options.prelude, {}⟩ with
    | error f =>
      rw [ran] at eq
      exact absurd eq nofun
    | ok r =>
      rw [ran] at eq
      cases eq
      exact history_of_emitFunctions ran
  obtain ⟨created, closed, history⟩ := history
  refine ⟨exits, c', generated, quiet, none, (history.settled settled).clean_text none, ?_⟩
  rw [checked.prelude]
  exact ⟨created, closed, history⟩

theorem CodeBuffer.render_of_openRecords {b : CodeBuffer} (h : b.openRecords = []) :
    b.render = .ok b.text := by
  unfold CodeBuffer.render
  rw [h]
  rfl

/-- A function name with a placeholder is refused when the head of the function is written. -/
theorem Program.compile_refused (h : p.analyze (.start options) = .ok (.ok tree, c))
    (unclean : ∃ f ∈ p.functions, ¬Clean f.name) :
    ∃ line, p.compile options = .error (.internal (.strayPlaceholder line)) := by
  obtain ⟨fs, registers, elaborated, checked⟩ := checked_of_analyze h
  obtain ⟨f, mem, hf⟩ := unclean
  have here : f.name ∈ fs.map Routine.name :=
    Program.elaborate_names elaborated ▸ mem_map_of_mem mem
  obtain ⟨g, hg, eq⟩ := mem_map.mp here
  obtain ⟨line, generated⟩ := checked.generate_error elaborated ⟨g, hg, eq ▸ hf⟩
  refine ⟨line, ?_⟩
  rw [compile_of_analyze h, generated]
  rfl

/-- Compilation of an accepted program fails exactly if some function name holds the placeholder,
and then with that complaint. In every other case the text is free of placeholders, and no list of
holes is left at a node; the code has been written by operations on the buffer, and however it was
written, each hole that was created has been closed exactly once. -/
theorem Program.compile_closes_placeholders (h : p.analyze (.start options) = .ok (.ok tree, c)) :
    ((∃ fault, p.compile options = .error (.internal fault)) ↔
      ∃ f ∈ p.functions, placeholder ∈ f.name.toList) ∧
      (∀ failure, p.compile options = .error failure →
        ∃ line, failure = .internal (.strayPlaceholder line)) ∧
      ((∀ f ∈ p.functions, placeholder ∉ f.name.toList) →
        ∃ text exits c', p.compile options = .ok text ∧ placeholder ∉ text.toList ∧
          tree.generate c options.emitRuntime = .ok (exits, c') ∧
          (∀ id, (exits.get id).onTrue = [] ∧ (exits.get id).onFalse = [] ∧
            (exits.get id).next = [] ∧ (exits.get id).breaks = [] ∧ (exits.get id).continues = []) ∧
          (∃ created closed, History (c.emitPrelude options.emitRuntime).buffer created closed
            c'.buffer) ∧
          ∀ created closed, History (c.emitPrelude options.emitRuntime).buffer created
              closed c'.buffer → created.Nodup ∧ created.Perm closed) := by
  by_cases clean : ∀ f ∈ p.functions, Clean f.name
  · obtain ⟨exits, c', generated, quiet, none, text, history⟩ := generate_closed h clean
    have ok : p.compile options = .ok c'.buffer.text := by
      rw [compile_of_analyze h, generated]
      show (c'.buffer.render).mapError _ = _
      rw [render_of_openRecords none]
      rfl
    refine ⟨⟨?_, ?_⟩, ?_, fun _ => ⟨_, exits, c', ok, text, generated, quiet, history, ?_⟩⟩
    · rintro ⟨fault, error⟩
      rw [ok] at error
      exact absurd error nofun
    · rintro ⟨f, mem, unclean⟩
      exact absurd unclean (clean f mem)
    · intro failure error
      rw [ok] at error
      exact absurd error nofun
    · intro created closed history
      have balance := history.balance
      obtain ⟨fs, registers, -, checked⟩ := checked_of_analyze h
      rw [checked.prelude, options.settled_prelude.2, none, nil_append, List.append_nil] at balance
      exact ⟨history.created_new.2, balance⟩
  · have unclean : ∃ f ∈ p.functions, ¬Clean f.name := by simpa using clean
    obtain ⟨line, error⟩ := compile_refused h unclean
    refine ⟨⟨fun _ => ?_, fun _ => ⟨_, error⟩⟩, ?_, fun clean' => absurd clean' clean⟩
    · obtain ⟨f, mem, hf⟩ := unclean
      exact ⟨f, mem, Classical.not_not.mp hf⟩
    · intro failure failed
      rw [error] at failed
      exact ⟨line, (Except.error.inj failed).symm⟩

end Compilation

theorem Program.countdown_closes_placeholders :
    ∃ tree c text, countdown.analyze (.start {}) = .ok (.ok tree, c) ∧
      countdown.compile {} = .ok text ∧ placeholder ∉ text.toList := by
  obtain ⟨tree, c, accepted⟩ := countdown_accepted
  obtain ⟨-, -, closes⟩ := Program.compile_closes_placeholders accepted
  obtain ⟨text, _, _, compiled, clean, -⟩ := closes (by decide)
  exact ⟨tree, c, text, accepted, compiled, clean⟩

end Backpatch
