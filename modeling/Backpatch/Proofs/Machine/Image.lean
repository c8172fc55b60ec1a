import Backpatch.Proofs.Elaboration.Types
import Backpatch.Proofs.Machine.Basic
import Backpatch.Proofs.Output.Symbols

/-!
# The finished code as it is executed

Which functions the finished code of a program has: a name that is not one of the runtime is that of
a function of the program, and its code is found by it (`Program.Compiled.function?_eq`).
-/

namespace Backpatch

open List

section Functions

variable {p : Program} {options : Options} {fs : List Routine} {registers : Nat} {b : CodeBuffer}

theorem ofName?_runtimeCode (emitRuntime : Bool) :
    ∀ f ∈ runtimeCode emitRuntime, Primitive.ofName? f.name ≠ none := by
  cases emitRuntime <;> decide

/-- What is called and not known by what it does is a function of the program. -/
theorem Program.Compiled.exists_of_function? (h : p.Compiled options fs registers b) {name : String}
    {code : FunctionCode} (other : Primitive.ofName? name = none)
    (found : b.image.function? name = some code) :
    ∃ f s, (f, s) ∈ Routine.placed fs { registers := registers } ∧ code = f.function s ∧
      f.name = name := by
  have mem : code ∈ b.functions := mem_of_find?_eq_some found
  have named : code.name = name := by simpa using find?_some found
  rw [h.functions_eq] at mem
  rcases mem_append.mp mem with runtime | own
  · exact absurd (named ▸ other) (ofName?_runtimeCode _ code runtime)
  · obtain ⟨⟨f, s⟩, placed, rfl⟩ := mem_map.mp own
    exact ⟨f, s, placed, rfl, named⟩

/-- Each function of the program is found by its name. -/
theorem Program.Compiled.function?_eq (h : p.Compiled options fs registers b) {f : Routine}
    {s : NameSupply} (placed : (f, s) ∈ Routine.placed fs { registers := registers })
    (other : Primitive.ofName? f.name = none) :
    b.image.function? f.name = some (f.function s) := by
  have mem : f.function s ∈ b.functions := by
    rw [h.functions_eq]
    exact mem_append_right _ (mem_map.mpr ⟨_, placed, rfl⟩)
  cases found : b.image.function? f.name with
  | none =>
    have absent := find?_eq_none.mp found _ mem
    exact absurd (beq_self_eq_true f.name) absent
  | some code =>
    obtain ⟨g, s', placed', rfl, named⟩ := h.exists_of_function? other found
    -- No two functions have the same name.
    have distinct : ((Routine.placed fs { registers := registers }).filterMap
        fun q => some q.1.name).Nodup := by
      obtain ⟨globals, chain, -⟩ := Program.elaborate_chain h.elaborated
      have names := chain.nodup_names.1
      rw [← Routine.map_placed fs { registers := registers }, map_map] at names
      rw [filterMap_eq_map']
      exact names
    have same := eq_of_nodup_filterMap distinct placed' placed (congrArg some named) rfl
    cases same
    rfl

theorem Program.Compiled.exists_main (h : p.Compiled options fs registers b) :
    ∃ f s, (f, s) ∈ Routine.placed fs { registers := registers } ∧ f.name = "main" ∧
      f.returnType = .void ∧
      f.parameters = [] ∧ b.image.start = some (.running ((f.function s).start []) [] []) := by
  obtain ⟨f, mem, name, returnType, parameters⟩ := Program.elaborate_main h.elaborated
  rw [← Routine.map_placed fs { registers := registers }] at mem
  obtain ⟨⟨f, s⟩, placed, rfl⟩ := mem_map.mp mem
  have found := h.function?_eq placed (name ▸ by decide)
  refine ⟨f, s, placed, name, returnType, parameters, ?_⟩
  unfold Image.start
  rw [← name, found]
  rfl

end Functions

end Backpatch
