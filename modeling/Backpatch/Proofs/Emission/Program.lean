import Backpatch.Proofs.Elaboration.Program
import Backpatch.Proofs.Elaboration.Scope

/-!
# Code of programs

The code of a program that is accepted is the prelude and then the code of its functions
(`Program.Checked.generate_eq`), and where every name can be written it is there
(`Program.Checked.generate_ok`). The one thing that can go wrong is a function whose name holds the
placeholder, and then the emission stops at the head of the first such function
(`Program.Checked.generate_refused`).
-/

namespace Backpatch

open Emission List

/-! ## Names of functions -/

variable {last globals : List (String × Meaning)} {limit registers : Nat} {routines : List Routine}

theorem FunctionDef.YieldsAll.names {fs : List FunctionDef} {registers' : Nat}
    (h : FunctionDef.YieldsAll fs globals registers routines last registers') :
    routines.map Routine.name = fs.map FunctionDef.name := by
  induction h with
  | nil => rfl
  | cons _ declares _ ih => rw [map_cons, map_cons, declares.name, ih]

theorem Program.elaborate_names {p : Program} (h : p.elaborate = .ok (routines, registers)) :
    routines.map Routine.name = p.functions.map FunctionDef.name := by
  obtain ⟨_, all, -⟩ := Program.of_elaborate_eq_ok h
  exact all.names

theorem Program.exists_source {p : Program} (h : p.elaborate = .ok (routines, registers))
    {f : Routine} (mem : f ∈ routines) : ∃ g, (g, f) ∈ p.functions.zip routines := by
  have length : routines.length = p.functions.length := by
    rw [← length_map Routine.name, Program.elaborate_names h, length_map]
  rw [← map_snd_zip (Nat.le_of_eq length)] at mem
  obtain ⟨⟨g, f⟩, inside, rfl⟩ := mem_map.mp mem
  exact ⟨g, inside⟩

theorem clean_runtimeNames {name : String} {m : Meaning} (h : runtimeNames.lookup name = some m) :
    Clean name := by
  rcases lookup_runtimeNames h with ⟨rfl, -⟩ | ⟨rfl, -⟩ <;> decide

/-- Functions with clean names before the first other one call only functions with clean names. -/
theorem Routine.Chain.clean {before after : List Routine}
    (h : Routine.Chain limit globals (before ++ after) last)
    (names : ∀ name m, globals.lookup name = some m → Clean name)
    (clean : ∀ f ∈ before, Clean f.name) :
    ∀ f ∈ before, f.Scoped limit cleanNames := by
  induction before generalizing globals with
  | nil => exact forall_mem_nil _
  | cons f before ih =>
    cases h with
    | cons free body rest =>
      have names' : ∀ name m, (f.entry :: globals).lookup name = some m → Clean name := by
        intro name m found
        rcases Routine.lookup_entry found with ⟨rfl, -⟩ | found
        · exact clean f mem_cons_self
        · exact names name m found
      have first : f.Scoped limit cleanNames := body.imp fun name _ _ known => by
        obtain ⟨_, _, found, -⟩ := known
        exact names' name _ found
      have later := ih rest names' fun g mem => clean g (mem_cons_of_mem _ mem)
      exact forall_mem_cons.mpr ⟨first, later⟩

theorem Routine.Chain.represented {fs : List Routine} (h : Routine.Chain limit globals fs last) :
    ∀ f ∈ fs, f.returnType.ir? ≠ none ∧ ∀ type ∈ f.parameters, type.ir? ≠ none := by
  induction h with
  | nil => exact forall_mem_nil _
  | cons _ body _ ih => exact forall_mem_cons.mpr ⟨⟨body.result, body.parameters⟩, ih⟩

/-! ## Emission -/

/-- The buffer above the first function of a program. -/
def Options.prelude (options : Options) : CodeBuffer :=
  ((Context.start options).emitPrelude options.emitRuntime).buffer

section Emission

variable {p : Program} {options : Options} {tree : SyntaxTree} {c : Context} {fs : List Routine}
  {registers : Nat}

theorem Program.Checked.prelude (h : Checked options tree c (fs, registers)) :
    (c.emitPrelude options.emitRuntime).buffer = options.prelude := by
  unfold Options.prelude Context.emitPrelude
  rw [h.buffer]

/-- The generation of code is the emission of the functions below the prelude. -/
theorem Program.Checked.generate_eq (h : Checked options tree c (fs, registers)) :
    ∃ nodes, Routine.OfAll fs nodes ∧ emitProgram tree.root = emitFunctions nodes ∧
      tree.generate c options.emitRuntime
        = (emitFunctions nodes ⟨{ registers := registers }, options.prelude, {}⟩).map
            fun (_, s) => (s.exits, { c with names := s.names, buffer := s.buffer }) := by
  obtain ⟨root, hroot, of⟩ := h.root
  have emitted : emitProgram tree.root = emitFunctions root.children := by
    rw [hroot]
    rfl
  refine ⟨root.children, of, emitted, ?_⟩
  have start : (⟨(c.emitPrelude options.emitRuntime).names,
      (c.emitPrelude options.emitRuntime).buffer, {}⟩ : Emission)
        = ⟨{ registers := registers }, options.prelude, {}⟩ := by
    have names : (c.emitPrelude options.emitRuntime).names = { registers := registers } := h.names
    rw [h.prelude, names]
  unfold SyntaxTree.generate Context.emit StateT.run
  rw [start, emitted]
  cases emitFunctions root.children ⟨{ registers := registers }, options.prelude, {}⟩ with
  | error f | ok r => rfl

/-- The code of the functions stands below the prelude, and nothing is left open. -/
theorem Program.Checked.generate_ok (h : Checked options tree c (fs, registers))
    (elaborated : p.elaborate = .ok (fs, registers)) (clean : ∀ f ∈ fs, Clean f.name) :
    ∃ exits c', tree.generate c options.emitRuntime = .ok (exits, c') ∧ exits.Quiet ∧
      c'.buffer = (Routine.addAll fs { registers := registers } options.prelude).2 := by
  obtain ⟨nodes, of, -, generated⟩ := h.generate_eq
  obtain ⟨globals, chain, -⟩ := Program.elaborate_chain elaborated
  have hscoped : ∀ f ∈ fs, f.Scoped registers cleanNames :=
    Routine.Chain.clean (List.append_nil fs ▸ chain) (fun _ _ => clean_runtimeNames) clean
  obtain ⟨exits, quiet, ran⟩ := Routine.emitted_all hscoped clean of { registers := registers }
    options.prelude ExitTable.quiet_empty
  rw [ran] at generated
  exact ⟨exits, _, generated, quiet, rfl⟩

/-- The emission stops at the head of the first function whose name holds the placeholder. -/
theorem Program.Checked.generate_refused (h : Checked options tree c (fs, registers))
    (elaborated : p.elaborate = .ok (fs, registers)) {f : Routine}
    (first : fs.find? (fun f => !decide (Clean f.name)) = some f) :
    tree.generate c options.emitRuntime = .error (.strayPlaceholder f.head.text) := by
  obtain ⟨nodes, of, -, generated⟩ := h.generate_eq
  obtain ⟨globals, chain, -⟩ := Program.elaborate_chain elaborated
  obtain ⟨hf, before, after, rfl, clean⟩ := find?_eq_some_iff_append.mp first
  have hf : ¬Clean f.name := by simpa using hf
  have clean : ∀ g ∈ before, Clean g.name := fun g mem => by simpa using clean g mem
  have hscoped := Routine.Chain.clean chain (fun _ _ => clean_runtimeNames) clean
  obtain ⟨result, parameters⟩ := chain.represented f (mem_append_right _ mem_cons_self)
  have refused :=
    Routine.refused_at hscoped clean result parameters hf of { registers := registers }
    options.prelude ExitTable.quiet_empty
  rw [refused] at generated
  exact generated

theorem Routine.exists_first_unclean (unclean : ∃ f ∈ fs, ¬Clean f.name) :
    ∃ f, fs.find? (fun f => !decide (Clean f.name)) = some f := by
  rw [← Option.isSome_iff_exists, find?_isSome]
  obtain ⟨f, mem, hf⟩ := unclean
  exact ⟨f, mem, by rw [decide_eq_false hf]; rfl⟩

theorem Program.Checked.generate_error (h : Checked options tree c (fs, registers))
    (elaborated : p.elaborate = .ok (fs, registers)) (unclean : ∃ f ∈ fs, ¬Clean f.name) :
    ∃ line, tree.generate c options.emitRuntime = .error (.strayPlaceholder line) := by
  obtain ⟨f, first⟩ := Routine.exists_first_unclean unclean
  exact ⟨_, h.generate_refused elaborated first⟩

end Emission

end Backpatch
