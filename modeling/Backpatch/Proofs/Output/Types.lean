import Backpatch.Proofs.Elaboration.Types
import Backpatch.Proofs.Output.Names

/-!
# Types of the finished code

The finished code is well typed (`Program.compile_typed`). The type of a register can be read off
the one line that gives it a value, or off the head of the function for a parameter, and every line
reads its registers at these types.
-/

namespace Backpatch

open List

namespace FunctionCode

/-- The type of a register: that of the parameter, or that of the value which its line gives it. -/
def typeOf? (f : FunctionCode) : Register → Option RegisterType
  | .argument index => f.parameters[index]?.bind IrType.register?
  | r => (f.body.find? fun i => i.result? = some r).bind Instr.resultType?

/-- Every register has the type that its line gives it, and is read at this type. -/
structure WellTyped (f : FunctionCode) : Prop where
  given : ∀ i ∈ f.lines, i.Given f.typeOf?
  reads : ∀ i ∈ f.lines, i.WellTyped f.typeOf? f.result

theorem wellTyped_of_body {f : FunctionCode} (given : ∀ i ∈ f.body, i.Given f.typeOf?)
    (reads : ∀ i ∈ f.body, i.WellTyped f.typeOf? f.result) : f.WellTyped := by
  have outside {i : Instr} (h : i.result? = none) : i.Given f.typeOf? := by
    intro r result
    rw [h] at result
    cases result
  constructor
  · exact forall_mem_append.mpr
      ⟨forall_mem_cons.mpr ⟨outside rfl, given⟩, forall_mem_singleton.mpr (outside rfl)⟩
  · exact forall_mem_append.mpr
      ⟨forall_mem_cons.mpr ⟨trivial, reads⟩, forall_mem_singleton.mpr trivial⟩

end FunctionCode

/-- If each register is given once, and no parameter is, a register has the type that its line gives
it. -/
theorem FunctionCode.given_typeOf? {f : FunctionCode} (distinct : f.results.Nodup)
    (free : ∀ index, .argument index ∉ f.results) : ∀ i ∈ f.body, i.Given f.typeOf? := by
  rw [FunctionCode.results_eq] at distinct free
  intro i mem r result
  have first : f.typeOf? r = (f.body.find? fun i => i.result? = some r).bind Instr.resultType? := by
    cases r with
    | argument index => exact absurd (mem_filterMap.mpr ⟨i, mem, result⟩) (free index)
    | _ => rfl
  rw [first]
  cases found : f.body.find? fun i => i.result? = some r with
  | none => exact absurd result (by simpa using find?_eq_none.mp found i mem)
  | some j =>
    have given : j.result? = some r := by simpa using find?_some found
    rw [eq_of_nodup_filterMap distinct mem (mem_of_find?_eq_some found) result given]
    rfl

theorem Program.exists_wellTyped {p : Program} {fs : List Routine} {registers : Nat}
    (h : p.elaborate = .ok (fs, registers)) {f : Routine} (mem : f ∈ fs) : ∃ Γ, f.WellTyped Γ := by
  obtain ⟨g, paired⟩ := Program.exists_source h mem
  exact ⟨_, Program.elaborate_wellTyped h _ paired⟩

section Output

variable {p : Program} {options : Options} {fs : List Routine} {registers : Nat} {b : CodeBuffer}

theorem Routine.mem_results {f : Routine} {s : NameSupply} {r : Register}
    (mem : r ∈ (f.function s).results) : r = .frame ∨ ∃ n, r = .temp n := by
  rcases mem_append.mp ((f.results_function s).2.mem_iff.mp mem) with given | given
  · exact .inl (Routine.eq_frame_of_mem_array given)
  · obtain ⟨n, -, rfl⟩ := mem_map.mp given
    exact .inr ⟨n, rfl⟩

variable {q : Routine × NameSupply}

theorem Program.Compiled.nodup_results (h : p.Compiled options fs registers b)
    (mem : q ∈ Routine.placed fs { registers := registers }) :
    (q.1.function q.2).results.Nodup := by
  have here : q.1.function q.2 ∈ b.functions := by
    rw [h.functions_eq]
    exact mem_append_right _ (mem_map.mpr ⟨q, mem, rfl⟩)
  refine nodup_iff_count.mpr fun r => ?_
  by_cases given : r ∈ (q.1.function q.2).results
  · rcases Routine.mem_results given with rfl | ⟨n, rfl⟩
    · exact h.count_frame _ here
    · -- The register is given once in the whole output.
      have all : (q.1.function q.2).results.Sublist b.results := by
        rw [h.results_eq]
        exact sublist_flatten_of_mem (mem_map_of_mem here)
      rw [← h.count_temp (all.mem given)]
      exact all.count_le _
  · rw [count_eq_zero_of_not_mem given]
    exact Nat.zero_le _

theorem Program.Compiled.given (h : p.Compiled options fs registers b)
    (mem : q ∈ Routine.placed fs { registers := registers }) :
    ∀ i ∈ (q.1.function q.2).body, i.Given (q.1.function q.2).typeOf? := by
  refine FunctionCode.given_typeOf? (h.nodup_results mem) fun index given => ?_
  rcases Routine.mem_results given with eq | ⟨n, eq⟩ <;> cases eq

/-- The lines of a function of the program read their registers at the types that are read off the
function. -/
theorem Program.Compiled.wellTyped_function (h : p.Compiled options fs registers b)
    (mem : q ∈ Routine.placed fs { registers := registers }) : (q.1.function q.2).WellTyped := by
  have source : q.1 ∈ fs := Routine.mem_of_mem_placed mem
  obtain ⟨Γ, typed⟩ : ∃ Γ, q.1.WellTyped Γ := Program.exists_wellTyped h.elaborated source
  obtain ⟨globals, chain, -⟩ := Program.elaborate_chain h.elaborated
  obtain ⟨Q, inScope⟩ := chain.scoped q.1 source
  have given := h.given mem
  refine FunctionCode.wellTyped_of_body given (Routine.wellTyped_code typed inScope ?_ ?_)
  · intro index bound
    show (q.1.parameters.map Ty.ir)[index]?.bind IrType.register? = some .word
    rw [getElem?_map, getElem?_eq_getElem bound, Option.map_some,
      Routine.ir_parameters typed _ (getElem_mem bound)]
    rfl
  · exact Step.allFulfil_of_instr given

/-- The lines of the runtime read their registers at their types. -/
theorem wellTyped_runtimeCode (emitRuntime : Bool) :
    ∀ f ∈ runtimeCode emitRuntime, f.WellTyped := by
  -- Each function of the runtime has one register, the address of a text.
  have single {f : FunctionCode} {name : String} (results : f.results = [.named name]) :
      ∀ i ∈ f.body, i.Given f.typeOf? := by
    refine FunctionCode.given_typeOf? ?_ fun index mem => ?_
    · rw [results]
      exact pairwise_singleton _ _
    · rw [results] at mem
      cases mem_singleton.mp mem
  have printer (type : IrType) (kind : RegisterType) (name format : String) (eq : type.register?
      = some kind) :
      FunctionCode.WellTyped ⟨.void, name, [type], Prelude.printerBody type format⟩ := by
    refine FunctionCode.wellTyped_of_body (single rfl) ?_
    generalize hT : FunctionCode.typeOf? _ = T
    have specifier : T (.named "%spec_ptr") = some .text := hT ▸ rfl
    have value : T (.argument 0) = some kind := hT ▸ eq
    exact forall_mem_cons.mpr ⟨trivial, forall_mem_cons.mpr
      ⟨forall_mem_cons.mpr ⟨⟨.text, rfl, specifier⟩, forall_mem_singleton.mpr ⟨kind, eq, value⟩⟩,
        forall_mem_singleton.mpr rfl⟩⟩
  have handler : FunctionCode.WellTyped ⟨.void, zeroDivisionHandler, [],
      Prelude.zeroDivisionBody⟩ := by
    refine FunctionCode.wellTyped_of_body (single rfl) ?_
    generalize hT : FunctionCode.typeOf? _ = T
    have message : T (.named "%message") = some .text := hT ▸ rfl
    exact forall_mem_cons.mpr ⟨trivial, forall_mem_cons.mpr
      ⟨forall_mem_singleton.mpr ⟨.text, rfl, message⟩, forall_mem_cons.mpr
        ⟨forall_mem_singleton.mpr ⟨.word, rfl, rfl⟩, forall_mem_singleton.mpr rfl⟩⟩⟩
  cases emitRuntime with
  | false => exact forall_mem_nil _
  | true =>
    exact forall_mem_cons.mpr ⟨printer .i32 .word _ _ rfl, forall_mem_cons.mpr
      ⟨printer .pointer .text _ _ rfl, forall_mem_singleton.mpr handler⟩⟩

theorem Program.Compiled.wellTyped (h : p.Compiled options fs registers b) :
    ∀ f ∈ b.functions, f.WellTyped := by
  rw [h.functions_eq]
  exact forall_mem_append.mpr
    ⟨wellTyped_runtimeCode _, forall_mem_map.mpr fun q mem => h.wellTyped_function mem⟩

end Output

/-- The finished code is well typed: every register has the type that its line gives it, or the type
of the parameter it is, and every line reads registers only at their types. -/
theorem Program.compile_typed {p : Program} {options : Options} {text : String}
    (h : p.compile options = .ok text) :
    ∃ b, p.emit options = .ok b ∧ b.render = .ok text ∧
      b.instrs = b.functions.flatMap FunctionCode.written ∧ (∀ f ∈ b.functions, f.WellTyped) ∧
      ∀ f ∈ b.functions, f ∉ runtimeCode options.emitRuntime →
        ∀ type ∈ f.parameters, type = .i32 := by
  obtain ⟨fs, registers, b, compiled, rendered⟩ := compiled_of_compile h
  refine ⟨b, compiled.emitted, rendered, compiled.instrs_functions, compiled.wellTyped, ?_⟩
  intro f mem own
  rw [compiled.functions_eq] at mem
  obtain ⟨q, placed, rfl⟩ := mem_map.mp ((mem_append.mp mem).resolve_left own)
  obtain ⟨Γ, typed⟩ :=
    Program.exists_wellTyped compiled.elaborated (Routine.mem_of_mem_placed placed)
  exact forall_mem_map.mpr (Routine.ir_parameters typed)

theorem Program.countdown_typed :
    ∃ text b, countdown.compile {} = .ok text ∧ countdown.emit {} = .ok b ∧
      ∀ f ∈ b.functions, f.WellTyped := by
  obtain ⟨text, compiled⟩ := countdown_compiles
  obtain ⟨b, emitted, -, -, typed, -⟩ := Program.compile_typed compiled
  exact ⟨text, b, compiled, emitted, typed⟩

end Backpatch
