import Backpatch.Proofs.Output.Symbols
import Backpatch.Proofs.Semantics.Statement
import Backpatch.Proofs.Session.Scopes

/-!
# Elaboration of programs and their meaning

A function and the routine that it becomes have the same outcome (`Program.refines_call`), by
induction on the limit, since the calls that a function makes have a smaller one. Therefore what a
program does is what its core terms do (`Program.Runs.core`).
-/

namespace Backpatch

open Outcome List

/-! ## Functions -/

namespace Value.Passed

variable {values : List Value} {scalars : List Scalar} {types : List Ty}

theorem length_eq (h : Passed values types scalars) : values.length = types.length := by
  fun_induction Passed values types scalars with
  | case1 => rfl
  | case2 v vs type types c cs ih => exact congrArg (· + 1) (ih h.2)
  | case3 => exact h.elim

theorem exists_words (h : Passed values types scalars)
    (storable : ∀ type ∈ types, type.isSpecial = false) :
    ∃ words : List Word, scalars = words.map .word ∧ words.length = types.length := by
  fun_induction Passed values types scalars with
  | case1 => exact ⟨[], rfl, rfl⟩
  | case2 v vs type types c cs ih =>
    obtain ⟨first, rest⟩ := forall_mem_cons.mp storable
    obtain ⟨words, rfl, count⟩ := ih h.2 rest
    obtain ⟨w, rfl⟩ := h.1.exists_word first
    exact ⟨w :: words, rfl, congrArg (· + 1) count⟩
  | case3 => exact h.elim

theorem of_singleton {type : Ty} (h : Passed values [type] scalars) :
    ∃ v c, values = [v] ∧ scalars = [c] ∧ (v.convert type).Kept type c := by
  cases values with
  | nil => cases scalars <;> exact h.elim
  | cons v values =>
    cases scalars with
    | nil => exact h.elim
    | cons c scalars =>
      obtain ⟨kept, rest⟩ := h
      cases values with
      | nil =>
        cases scalars with
        | nil => exact ⟨v, c, rfl, rfl, kept⟩
        | cons => exact rest.elim
      | cons => exact rest.elim

end Value.Passed

theorem mapM_word? (words : List Word) : (words.map Scalar.word).mapM Scalar.word?
    = some words := by
  induction words with
  | nil => rfl
  | cons w words ih =>
    rw [map_cons, mapM_cons, ih]
    rfl

variable {f : FunctionDef} {routine : Routine} {values : List Value}
  {behind globals : List (String × Meaning)} {registers registers' : Nat}

/-- The parameters are at their places when a function begins. -/
theorem bindFormals_shows {σ : Locals} {ps : List Parameter} {index : Nat} {e e' : Env}
    {words : List Word} {store : Store} (h : bindFormals (ps.map Parameter.formal) index e = .ok e')
    (passed : Value.Passed values (ps.map fun p => Ty.ofName p.type) (words.map .word))
    (held : ∀ (i : Nat) w, words[i]? = some w → σ (.parameter (index + i)) = w)
    (shows : Shows σ e.here store) (apart : (placesOf e.here).Nodup)
    (low : ∀ place ∈ placesOf e.here, ∃ i, i < index ∧ place = .parameter i) :
    e'.outer = e.outer ∧ e'.returnType = e.returnType ∧ (placesOf e'.here).Nodup ∧
      (∀ place ∈ placesOf e'.here, ∃ i, place = .parameter i) ∧
      Shows σ e'.here
        ((zipWith (fun p v => (p.name, Value.convert (Ty.ofName p.type) v)) ps values).reverse
        ++ store) := by
  induction ps generalizing index e values words store with
  | nil =>
    cases h
    refine ⟨rfl, rfl, apart, fun place mem => ?_, shows⟩
    obtain ⟨i, -, same⟩ := low place mem
    exact ⟨i, same⟩
  | cons p ps ih =>
    obtain ⟨-, h⟩ := of_require_eq_ok h
    cases values with
    | nil => exact passed.elim
    | cons v values =>
      cases words with
      | nil => exact passed.elim
      | cons w words =>
        rw [zipWith_cons_cons, reverse_cons, append_assoc, singleton_append]
        have first : σ (.parameter index) = w := held 0 w rfl
        let next : Env := { e with here := (p.name, .parameter (Ty.ofName p.type) index) :: e.here }
        refine ih (e := next) h passed.2 (fun i w found => ?_)
          (.cons ⟨rfl, .parameter index, _, rfl, ?_⟩ shows) ?_ ?_
        · rw [Nat.add_assoc, Nat.add_comm 1]
          exact held (i + 1) w found
        · rw [first]
          exact passed.1
        · refine nodup_cons.mpr ⟨fun mem => ?_, apart⟩
          obtain ⟨i, below, same⟩ := low _ mem
          exact Nat.lt_irrefl _ (Place.parameter.inj same ▸ below)
        · refine forall_mem_cons.mpr ⟨⟨index, Nat.lt_succ_self _, rfl⟩, fun place mem => ?_⟩
          obtain ⟨i, below, same⟩ := low place mem
          exact ⟨i, Nat.lt_succ_of_lt below, same⟩

/-- What a function returns is converted, and what it returns by itself is 0. -/
theorem FunctionDef.refines_finish {flow : Flow Value} {flow' : Flow (Option Scalar)}
    (name : routine.name = f.name) (type : routine.returnType = Ty.ofName f.returnType)
    (result : (routine.returnType != .string && routine.returnType != .invalid) = true)
    (h : Flow.Related (Returned routine.returnType) flow flow') :
    Refines (fun v r => v.type = routine.returnType ∧ r = v.scalar?) (f.finish flow)
      (routine.finish flow') := by
  cases h with
  | next =>
    unfold FunctionDef.finish Routine.finish
    dsimp only
    rw [name, ← type]
    split
    · exact .stopped _ _
    · refine .pure ?_
      generalize routine.returnType = returnType at result
      cases returnType with
      | int | byte | bool | void => exact ⟨rfl, rfl⟩
      | string | invalid => cases result
  | «break» | «continue» => exact .unfinished _
  | «return» related =>
    obtain ⟨converts, rfl⟩ := related
    obtain ⟨converted, scalar⟩ := Value.convert_of_convertibleTo converts
    unfold FunctionDef.finish
    rw [← type]
    exact .pure ⟨converted, scalar.symm⟩

/-- A function and the routine that it becomes have the same outcome. -/
theorem FunctionDef.elaborate_refines {S : Setting} {C : CoreSetting}
    (h : f.elaborate globals registers = .ok (routine, behind, registers'))
    (hS : S.AgreesOn C behind)
    {scalars : List Scalar} (passed : Value.Passed values routine.parameters scalars) :
    Refines (fun v r => v.type = routine.returnType ∧ r = v.scalar?) (f.run S values)
      (routine.run C scalars) := by
  unfold FunctionDef.elaborate at h
  obtain ⟨e, head, h⟩ := of_bind_eq_ok h
  obtain ⟨⟨as, e', layout⟩, body, h⟩ := of_bind_eq_ok h
  cases h
  obtain ⟨result, storable, -, bound⟩ := of_elaborateHead_eq_ok head
  have types : (f.parameters.map Parameter.formal).map Builder.Formal.type = f.parameters.map
      fun p => Ty.ofName p.type :=
    map_map ..
  obtain ⟨words, rfl, count⟩ := passed.exists_words fun type mem => by
    obtain ⟨p, hp, rfl⟩ := mem_map.mp mem
    exact storable p hp
  have length : values.length = f.parameters.length := by
    rw [passed.length_eq, length_map, length_map]
  unfold FunctionDef.run Routine.run
  rw [if_pos length, mapM_word?]
  show Refines _ _ (pure words >>= _)
  rw [pure_bind, if_pos count]
  have held : ∀ (i : Nat) w, words[i]? = some w →
      Locals.ofArguments words (.parameter (0 + i)) = w := by
    intro i w found
    show words[0 + i]?.getD 0 = w
    rw [Nat.zero_add, found]
    rfl
  obtain ⟨outer, returnType, apart, low, shows⟩ :=
    bindFormals_shows bound (types ▸ passed) held .nil .nil (forall_mem_nil _)
  rw [List.append_nil] at shows
  have has : e.Has e.here ((f.name, .function (Ty.ofName f.returnType)
      ((f.parameters.map Parameter.formal).map Builder.Formal.type)) :: globals) registers := by
    refine ⟨congrArg (e.here ++ ·) outer, apart, fun pointer mem => ?_⟩
    obtain ⟨i, same⟩ := low _ mem
    cases same
  refine ((Stmt.yieldsAll body).refines hS has shows).bind fun r r' left => ?_
  obtain ⟨flows, -⟩ := left
  rw [returnType] at flows
  exact FunctionDef.refines_finish rfl rfl result flows

/-! ## Programs -/

section Programs

variable {p : Program} {fs : List Routine} {registers : Nat}

variable {name : String} {overflow : Option Word}

/-- A global name is that of a function of the program, or of one that every program can call. -/
theorem Program.function_cases (h : p.elaborate = .ok (fs, registers)) {m : Meaning}
    (found : (Routine.globals fs).lookup name = some m) :
    (∃ f routine, (f, routine) ∈ p.functions.zip fs ∧
      m = .function routine.returnType routine.parameters ∧ p.function? name = some f ∧
      fs.find? (·.name == name) = some routine) ∨
    (p.function? name = none ∧ fs.find? (·.name == name) = none ∧
      runtimeNames.lookup name = some m) := by
  have names := Program.elaborate_names h
  have distinct : (fs.map Routine.name).Nodup := by
    obtain ⟨globals, chain, -⟩ := Program.elaborate_chain h
    exact chain.nodup_names.1
  unfold Routine.globals at found
  rw [lookup_append] at found
  rcases Option.or_eq_some_iff.mp found with own | ⟨other, runtime⟩
  · obtain ⟨routine, mem, entry⟩ := mem_map.mp (mem_reverse.mp (mem_of_lookup own))
    cases entry
    obtain ⟨f, paired⟩ := Program.exists_source h mem
    obtain ⟨before, _, behind, _, elaborated, -, -⟩ := Program.elaborate_mem h _ paired
    have named : routine.name = f.name := (FunctionDef.elaborate_declares elaborated).2.name
    obtain ⟨first, second⟩ := of_mem_zip paired
    refine .inl ⟨f, routine, paired, rfl, ?_, find?_eq_of_nodup distinct second⟩
    unfold Program.function?
    rw [named]
    exact find?_eq_of_nodup (names ▸ distinct) first
  · have absent : name ∉ fs.map Routine.name := by
      intro mem
      obtain ⟨routine, declared, rfl⟩ := mem_map.mp mem
      have entry : routine.entry ∈ (fs.map Routine.entry).reverse :=
        mem_reverse.mpr (mem_map_of_mem declared)
      have ne := lookup_eq_none_iff.mp other _ entry
      exact absurd rfl (bne_iff_ne.mp ne)
    refine .inr ⟨find?_eq_none.mpr fun f mem same => ?_,
      find?_eq_none.mpr fun f mem same => ?_, runtime⟩
    · rw [names] at absent
      exact absent (eq_of_beq same ▸ mem_map_of_mem mem)
    · exact absent (eq_of_beq same ▸ mem_map_of_mem mem)

/-- The functions that every program can call have the same outcome in both meanings. -/
theorem refines_runtimeCall {returnType : Ty} {parameters : List Ty}
    (h : runtimeNames.lookup name = some (.function returnType parameters)) :
    returnType = .void ∧ ∀ values scalars, Value.Passed values parameters scalars →
      Refines (fun v r => v.type = .void ∧ r = v.scalar?) (runtimeCall name values)
        (Routine.runtimeCall name scalars) := by
  rcases lookup_runtimeNames h with ⟨rfl, same⟩ | ⟨rfl, same⟩
  · cases same
    refine ⟨rfl, fun values scalars passed => ?_⟩
    obtain ⟨v, c, rfl, rfl, type, scalar⟩ := passed.of_singleton
    cases v with
    | int | byte =>
      obtain rfl := Option.some.inj scalar
      exact .done _ ⟨rfl, rfl⟩
    | bool | string | void => cases type
  · cases same
    refine ⟨rfl, fun values scalars passed => ?_⟩
    obtain ⟨v, c, rfl, rfl, type, scalar⟩ := passed.of_singleton
    rw [Value.convert_of_not_numeric rfl] at type scalar
    cases v with
    | string text =>
      obtain rfl := Option.some.inj scalar
      exact .done _ ⟨rfl, rfl⟩
    | int | byte | bool | void => cases type

/-- Both meanings agree on the functions of a program if they agree on what calls come to. -/
theorem Program.agrees_of_call (h : p.elaborate = .ok (fs, registers)) {limit : Nat}
    (calls : ∀ name returnType parameters, (Routine.globals fs).lookup name
      = some (.function returnType parameters) →
      ∀ values scalars, Value.Passed values parameters scalars → Refines (fun v r => v.type =
      returnType ∧ r = v.scalar?) (p.call overflow limit name values)
        (Routine.call fs overflow limit name scalars)) :
    (p.setting overflow limit).AgreesOn (Routine.setting fs overflow limit)
      (Routine.globals fs) := by
  refine ⟨rfl, rfl, fun name m found => ?_⟩
  have sound := Program.elaborate_sound h name m found
  have function : ∃ returnType parameters, m = .function returnType parameters ∧
      p.returnType name = returnType := by
    unfold Program.returnType
    rcases Program.function_cases h found with ⟨f, routine, paired, rfl, source, -⟩
      | ⟨source, -, runtime⟩
    · obtain ⟨before, _, behind, _, elaborated, -, -⟩ := Program.elaborate_mem h _ paired
      rw [source]
      exact ⟨_, _, rfl, (FunctionDef.elaborate_declares elaborated).2.result.symm⟩
    · obtain ⟨returnType, parameters, rfl⟩ := globalNames_runtime name m runtime
      rw [source]
      exact ⟨_, _, rfl, (refines_runtimeCall runtime).1.symm⟩
  obtain ⟨returnType, parameters, rfl, result⟩ := function
  exact ⟨_, _, rfl, result, fun type mem => (sound.2.2 type mem).1, calls name _ _ found⟩

/-- A call of a function has the same outcome in both meanings. -/
theorem Program.refines_call (h : p.elaborate = .ok (fs, registers)) (overflow : Option Word)
    (limit : Nat) :
    ∀ name returnType parameters, (Routine.globals fs).lookup name
      = some (.function returnType parameters) →
      ∀ values scalars, Value.Passed values parameters scalars →
        Refines (fun v r => v.type = returnType ∧ r = v.scalar?) (p.call overflow limit name values)
          (Routine.call fs overflow limit name scalars) := by
  induction limit with
  | zero => exact fun _ _ _ _ _ _ _ => .unfinished _
  | succ limit ih =>
    intro name returnType parameters found values scalars passed
    have agrees := Program.agrees_of_call h ih
    unfold Program.call Routine.call
    rcases Program.function_cases h found with ⟨f, routine, paired, same, source, core⟩ | ⟨source,
      core, runtime⟩
    · obtain ⟨before, _, behind, _, elaborated, -, kept⟩ := Program.elaborate_mem h _ paired
      obtain ⟨rfl, rfl⟩ := Meaning.function.inj same
      rw [source, core]
      -- The function sees some of the global names.
      have inside : (p.setting overflow limit).AgreesOn
          (Routine.setting fs overflow limit) behind :=
        ⟨rfl, rfl, fun name m found => agrees.functions name m (kept name m found)⟩
      exact FunctionDef.elaborate_refines elaborated inside passed
    · rw [source, core]
      obtain ⟨rfl, refines⟩ := refines_runtimeCall runtime
      exact refines values scalars passed

/-- A program that ends does so when its core terms are run. -/
theorem Program.Runs.core (h : p.elaborate = .ok (fs, registers)) {trace : List Event}
    {ending : Ending} (runs : p.Runs overflow trace ending) :
    ∃ limit, Routine.call fs overflow limit "main" [] = .stopped trace ending ∨
      Routine.call fs overflow limit "main" [] = .done trace none ∧ ending = .returned := by
  obtain ⟨limit, runs⟩ := runs
  have main := (Program.elaborate_globals h).2
  have refines := Program.refines_call h overflow limit "main" .void [] main [] [] trivial
  refine ⟨limit, ?_⟩
  generalize Routine.call fs overflow limit "main" [] = core at refines ⊢
  rcases runs with ended | ⟨ended, returned⟩
  · rw [ended] at refines
    cases refines
    exact .inl rfl
  · rw [ended] at refines
    cases refines with
    | done events related =>
      obtain ⟨-, rfl⟩ := related
      exact .inr ⟨rfl, returned⟩

end Programs

end Backpatch
