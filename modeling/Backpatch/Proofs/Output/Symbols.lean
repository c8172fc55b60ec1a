import Backpatch.Proofs.Core.Linkage
import Backpatch.Proofs.Output.Names

/-!
# Global symbols of the finished code

What the lines of a compiled program introduce under a global name (`CodeBuffer.symbols`), and what
they call. The symbol table of a program knows `print` and `printi`, so no function of the source
can have these names. It knows nothing of the other functions that the output brings along
(`reservedNames`), and the program is linked properly if, and only if, none of its functions is
called like one of them (`Program.compile_linked`).
-/

namespace Backpatch

open List

/-- A letter or an underscore, and behind it letters, digits and underscores. -/
def isIdentifier (name : String) : Bool :=
  match name.toList with
  | [] => false
  | first :: rest => (first.isAlpha || first == '_') && rest.all fun c => c.isAlphanum || c == '_'

/-- The functions of the output that a program does not see. -/
def reservedNames (emitRuntime : Bool) : List String :=
  if emitRuntime then ["printf", "exit", zeroDivisionHandler] else ["exit", zeroDivisionHandler]

/-- The symbol of a function. -/
def Prototype.symbol (c : Prototype) : String := "@" ++ c.callee

namespace Global

/-- The function that is declared. -/
def prototype? : Global → Option Prototype
  | declare result name parameters variadic => some ⟨name, result, parameters, variadic⟩
  | _ => none

/-- The symbol that the line introduces. -/
def symbol? : Global → Option String
  | declare _ name _ _ => some ("@" ++ name)
  | constant name _ _ => some name.text
  | verbatim _ => none

end Global

namespace Instr

/-- The function that begins here. -/
def prototype? : Instr → Option Prototype
  | define result name parameters => some ⟨name, result, parameters, false⟩
  | _ => none

/-- The line is not one that the compiler knows the shape of. -/
def isVerbatim : Instr → Bool
  | verbatim .. => true
  | _ => false

end Instr

namespace CodeBuffer

/-- The functions that are declared or defined. -/
def prototypes (b : CodeBuffer) : List Prototype :=
  b.globals.toList.filterMap Global.prototype? ++ b.instrs.filterMap Instr.prototype?

/-- The symbols that the lines introduce, one for each line that introduces one. -/
def symbols (b : CodeBuffer) : List String :=
  b.globals.toList.filterMap Global.symbol? ++ (b.instrs.filterMap Instr.prototype?).map
    Prototype.symbol

/-- No symbol is introduced twice, and what is called under a name is the one function that is
declared or defined under it, with its types. -/
structure Linked (b : CodeBuffer) : Prop where
  symbols : b.symbols.Nodup
  calls : ∀ i ∈ b.instrs, ∀ c ∈ i.call?, b.prototypes.filter (·.callee = c.callee) = [c]

theorem sublist_symbols (b : CodeBuffer) :
    List.Sublist (b.prototypes.map Prototype.symbol) b.symbols := by
  have globals : ∀ globals : List Global, List.Sublist
      ((globals.filterMap Global.prototype?).map Prototype.symbol)
        (globals.filterMap Global.symbol?) := by
    intro globals
    induction globals with
    | nil => exact .slnil
    | cons g globals ih =>
      cases g with
      | declare => exact ih.cons_cons _
      | constant => exact ih.cons _
      | verbatim => exact ih
  unfold prototypes
  rw [map_append]
  exact (globals _).append (.refl _)

/-- Where no symbol is introduced twice, what is introduced can be called. -/
theorem linked_of_nodup {b : CodeBuffer} (nodup : b.symbols.Nodup)
    (calls : ∀ i ∈ b.instrs, ∀ c ∈ i.call?, c ∈ b.prototypes) : b.Linked := by
  have unique : ∀ {cs : List Prototype} {c : Prototype}, (cs.map Prototype.symbol).Nodup → c ∈ cs →
      cs.filter (·.callee = c.callee) = [c] := by
    intro cs c nodup mem
    induction cs with
    | nil => cases mem
    | cons d cs ih =>
      obtain ⟨new, nodup⟩ := nodup_cons.mp nodup
      rcases mem_cons.mp mem with rfl | mem
      · have others : cs.filter (·.callee = c.callee) = [] := by
          refine filter_eq_nil_iff.mpr fun d hd eq => new ?_
          exact mem_map.mpr ⟨d, hd, congrArg ("@" ++ ·) (of_decide_eq_true eq)⟩
        rw [filter_cons_of_pos (by simp), others]
      · have other : d.callee ≠ c.callee := by
          refine fun eq => new ?_
          exact mem_map.mpr ⟨c, mem, congrArg ("@" ++ ·) eq.symm⟩
        rw [filter_cons_of_neg (by simpa using other), ih nodup mem]
  exact ⟨nodup, fun i hi c hc => unique (nodup.sublist b.sublist_symbols) (calls i hi c hc)⟩

end CodeBuffer

/-! ## The functions of a program -/

/-- The function as the output defines it. -/
def Routine.prototype (f : Routine) : Prototype :=
  ⟨f.name, f.returnType.ir, f.parameters.map Ty.ir, false⟩

variable {name : String} {emitRuntime : Bool} {result : IrType} {parameters : List IrType}

theorem known_cons {f : Routine} {globals : List (String × Meaning)}
    (h : known (f.entry :: globals) name result parameters) :
    known globals name result parameters ∨ ⟨name, result, parameters, false⟩ = f.prototype := by
  obtain ⟨returnType, types, found, rfl, rfl⟩ := h
  rcases Routine.lookup_entry found with ⟨rfl, same⟩ | found
  · cases same
    exact .inr rfl
  · exact .inl ⟨returnType, types, found, rfl, rfl⟩

namespace Routine.Chain

variable {limit : Nat} {globals last : List (String × Meaning)} {fs : List Routine}

/-- What a function calls was known at the start, or is one of the functions. -/
theorem callable (h : Routine.Chain limit globals fs last) :
    ∀ f ∈ fs, f.Scoped limit fun name result parameters =>
      known globals name result parameters ∨
        ⟨name, result, parameters, false⟩ ∈ fs.map Routine.prototype := by
  induction h with
  | nil => exact forall_mem_nil _
  | cons _ body _ ih =>
    refine forall_mem_cons.mpr ⟨body.imp fun name result parameters call => ?_, fun g mem =>
      (ih g mem).imp fun name result parameters call => ?_⟩
    · exact (known_cons call).imp id fun eq => mem_map.mpr ⟨_, mem_cons_self, eq.symm⟩
    · rcases call with call | call
      · exact (known_cons call).imp id fun eq => mem_map.mpr ⟨_, mem_cons_self, eq.symm⟩
      · exact .inr (mem_cons_of_mem _ call)

/-- The functions have different names, and none that was taken at the start. -/
theorem nodup_names (h : Routine.Chain limit globals fs last) :
    (fs.map Routine.name).Nodup ∧ ∀ name ∈ fs.map Routine.name, globals.lookup name = none := by
  induction h with
  | nil => exact ⟨.nil, forall_mem_nil _⟩
  | @cons globals f fs last free body rest ih =>
    obtain ⟨nodup, new⟩ := ih
    -- A name that is still free behind `f` is neither the name of `f` nor one that was taken before
    -- it.
    have behind : ∀ name ∈ fs.map Routine.name, name ≠ f.name ∧ globals.lookup name = none := by
      intro name mem
      have found := new name mem
      unfold Routine.entry at found
      rw [lookup_cons] at found
      split at found
      · cases found
      · rename_i eq
        exact ⟨beq_eq_false_iff_ne.mp eq, found⟩
    refine ⟨nodup_cons.mpr ⟨fun mem => (behind _ mem).1 rfl, nodup⟩, ?_⟩
    exact forall_mem_cons.mpr ⟨free, fun name mem => (behind name mem).2⟩

end Routine.Chain

theorem Routine.numbered_placed (fs : List Routine) (s : NameSupply) :
    ∃ high, Numbered s.globals ((placed fs s).flatMap fun q => (q.1.code q.2).globals) high := by
  induction fs generalizing s with
  | nil => exact ⟨_, .nil _⟩
  | cons f fs ih =>
    obtain ⟨high, rest⟩ := ih (f.code s).names
    exact ⟨high, (f.adds_code s).append rest⟩

namespace Numbered

variable {low high : Nat} {globals : List Global}

theorem constants (h : Numbered low globals high) :
    ∀ g ∈ globals, ∃ n, g.constant? = some (.string n) := by
  intro g mem
  have here : g.constant? ∈ globals.map Global.constant? := mem_map_of_mem mem
  rw [h.names] at here
  obtain ⟨n, -, eq⟩ := mem_map.mp here
  exact ⟨n, eq.symm⟩

theorem filterMap_prototype? (h : Numbered low globals high) :
    globals.filterMap Global.prototype? = [] := by
  refine filterMap_eq_nil_iff.mpr fun g mem => ?_
  obtain ⟨n, eq⟩ := h.constants g mem
  cases g with
  | constant => rfl
  | declare | verbatim => cases eq

theorem filterMap_symbol? (h : Numbered low globals high) :
    globals.filterMap Global.symbol? = (numbers low high).map fun n =>
      (GlobalName.string n).text := by
  have texts : globals.map Global.symbol?
      = (globals.map Global.constant?).map (Option.map GlobalName.text) := by
    rw [map_map]
    refine map_congr_left fun g mem => ?_
    obtain ⟨n, eq⟩ := h.constants g mem
    cases g with
    | constant => rfl
    | declare | verbatim => cases eq
  have some : globals.map Global.symbol?
      = ((numbers low high).map fun n => (GlobalName.string n).text).map Option.some := by
    rw [texts, h.names, map_map, map_map]
    rfl
  have ids : globals.filterMap Global.symbol? = (globals.map Global.symbol?).filterMap id := by
    rw [filterMap_map]
    rfl
  rw [ids, some, filterMap_map]
  exact filterMap_some

end Numbered

/-! ## The symbols of a compiled program -/

/-- What stands above the functions whatever the program is. -/
def preludeGlobals (emitRuntime : Bool) : List Global :=
  if emitRuntime then Prelude.runtimeGlobals else Prelude.declarations

theorem Options.globals_prelude (options : Options) :
    options.prelude.globals.toList = preludeGlobals options.emitRuntime := by
  obtain ⟨emitRuntime, width⟩ := options
  cases emitRuntime <;> rfl

namespace FunctionCode

def prototype (f : FunctionCode) : Prototype := ⟨f.name, f.result, f.parameters, false⟩

theorem mem_lines (f : FunctionCode) {i : Instr} (h : i ∈ f.lines) :
    i = f.head ∨ i ∈ f.body ∨ i = .close := by
  simpa [lines, or_assoc] using h

theorem filterMap_written {f : FunctionCode} (h : f.Whole) :
    f.written.filterMap Instr.prototype? = [f.prototype] := by
  have body : f.body.filterMap Instr.prototype? = [] := by
    refine filterMap_eq_nil_iff.mpr fun i mem => ?_
    have inner := (h i mem).1
    cases i with
    | define => cases inner
    | _ => rfl
  simp [written, lines, head, prototype, Instr.prototype?, body]

end FunctionCode

/-- The functions that the output has whatever the program is. -/
def preludePrototypes (emitRuntime : Bool) : List Prototype :=
  (preludeGlobals emitRuntime).filterMap Global.prototype? ++
    (runtimeCode emitRuntime).map FunctionCode.prototype

/-- The symbols that the output has whatever the program is. -/
def preludeSymbols (emitRuntime : Bool) : List String :=
  (preludeGlobals emitRuntime).filterMap Global.symbol? ++
    (runtimeCode emitRuntime).map fun f => f.prototype.symbol

theorem known_runtimeNames (emitRuntime : Bool) (h : known runtimeNames name result parameters) :
    ⟨name, result, parameters, false⟩ ∈ preludePrototypes emitRuntime := by
  obtain ⟨returnType, types, found, rfl, rfl⟩ := h
  rcases lookup_runtimeNames found with ⟨rfl, same⟩ | ⟨rfl, same⟩
  · cases same
    cases emitRuntime <;> decide
  · cases same
    cases emitRuntime <;> decide

/-- What the code of a program calls of its own accord is there. -/
theorem support_mem (emitRuntime : Bool) :
    ⟨zeroDivisionHandler, .void, [], false⟩ ∈ preludePrototypes emitRuntime ∧
      ⟨"exit", .void, [.i32], false⟩ ∈ preludePrototypes emitRuntime := by
  cases emitRuntime <;> decide

theorem calls_runtimeCode (emitRuntime : Bool) :
    ∀ f ∈ runtimeCode emitRuntime, ∀ i ∈ f.body,
      ∀ c ∈ i.call?, c ∈ preludePrototypes emitRuntime := by
  cases emitRuntime <;> decide

theorem nodup_preludeSymbols (emitRuntime : Bool) : (preludeSymbols emitRuntime).Nodup := by
  cases emitRuntime <;> decide

theorem mem_preludeSymbols :
    ∀ name ∈ reservedNames emitRuntime, "@" ++ name ∈ preludeSymbols emitRuntime := by
  cases emitRuntime <;> decide

/-- The constants of the prelude are not written like identifiers. -/
theorem mem_of_mem_preludeSymbols (h : "@" ++ name ∈ preludeSymbols emitRuntime)
    (identifier : isIdentifier name = true) :
    name ∈ reservedNames emitRuntime ++ ["print", "printi"] := by
  have all : ∀ s ∈ preludeSymbols emitRuntime,
      isIdentifier (String.ofList (s.toList.drop 1)) = true →
        String.ofList (s.toList.drop 1) ∈ reservedNames emitRuntime ++ ["print", "printi"] := by
    cases emitRuntime <;> decide
  have back : String.ofList (("@" ++ name).toList.drop 1) = name := by simp
  have here := all _ h
  rw [back] at here
  exact here identifier

theorem lookup_runtimeNames_ne_none :
    ∀ name ∈ ["print", "printi"], runtimeNames.lookup name ≠ none := by
  decide

namespace GlobalName

theorem eq_of_text_string {m n : Nat} (h : (string m).text = (string n).text) : m = n :=
  Nat.repr_injective (String.append_right_inj "@.str" |>.mp h)

theorem toList_text_string (n : Nat) :
    (string n).text.toList = "@.str".toList ++ (toString n).toList := by
  simp [text]

end GlobalName

/-- A constant of the program is not called like one of the prelude, where a letter or an underscore
stands in the place of the number. -/
theorem text_string_ne_of_mem_preludeSymbols {s : String}
    (h : s ∈ preludeSymbols emitRuntime) (n : Nat) : (GlobalName.string n).text ≠ s := by
  have all : ∀ s ∈ preludeSymbols emitRuntime,
      s.toList ≠ "@.str".toList ∧ (s.toList.drop 5).head?.any Char.isDigit = false := by
    cases emitRuntime <;> decide
  rintro rfl
  obtain ⟨long, letter⟩ := all _ h
  rw [GlobalName.toList_text_string] at long letter
  cases digits : (toString n).toList with
  | nil =>
    rw [digits] at long
    exact long rfl
  | cons c rest =>
    rw [digits] at letter
    exact toList_toString_ne n letter digits

theorem text_string_ne_of_isIdentifier (h : isIdentifier name = true) (n : Nat) :
    (GlobalName.string n).text ≠ "@" ++ name := by
  intro eq
  have written : '.' :: ("str".toList ++ (toString n).toList) = name.toList := by
    have both := congrArg (fun s => s.toList.drop 1) eq
    simpa [GlobalName.toList_text_string] using both
  unfold isIdentifier at h
  rw [← written] at h
  cases h

section Compiled

variable {p : Program} {options : Options} {fs : List Routine} {registers : Nat} {b : CodeBuffer}

namespace Program.Compiled

variable (h : p.Compiled options fs registers b)

include h

theorem prototypes_instrs : b.instrs.filterMap Instr.prototype?
      = (runtimeCode options.emitRuntime).map FunctionCode.prototype
        ++ fs.map Routine.prototype := by
  have each : ∀ fs : List FunctionCode, (∀ f ∈ fs, f.Whole) →
      (fs.flatMap FunctionCode.written).filterMap Instr.prototype?
        = fs.map FunctionCode.prototype := by
    intro fs whole
    induction fs with
    | nil => rfl
    | cons f fs ih =>
      obtain ⟨first, rest⟩ := forall_mem_cons.mp whole
      rw [flatMap_cons, filterMap_append, FunctionCode.filterMap_written first, ih rest]
      rfl
  rw [h.instrs_functions, each _ fun f mem => Position.whole_of_walk (h.walk f mem), h.functions_eq,
    map_append, map_map]
  congr 1
  have heads := congrArg (map Routine.prototype) (Routine.map_placed fs { registers := registers })
  rw [map_map] at heads
  exact heads

/-- The globals are those of the prelude and then the numbered constants. -/
theorem globals_eq :
    ∃ constants high, b.globals.toList = preludeGlobals options.emitRuntime ++ constants ∧
      Numbered 0 constants high := by
  obtain ⟨high, numbered⟩ := Routine.numbered_placed fs { registers := registers }
  refine ⟨_, high, ?_, numbered⟩
  rw [h.buffer, Routine.globals_addAll, options.globals_prelude]

theorem prototypes_eq :
    b.prototypes = preludePrototypes options.emitRuntime ++ fs.map Routine.prototype := by
  obtain ⟨constants, high, globals, numbered⟩ := h.globals_eq
  unfold CodeBuffer.prototypes preludePrototypes
  rw [h.prototypes_instrs, globals, filterMap_append, numbered.filterMap_prototype?,
    List.append_nil, append_assoc]

/-- The symbols are those of the prelude, those of the constants and those of the functions. -/
theorem symbols_perm : ∃ high, b.symbols.Perm (preludeSymbols options.emitRuntime ++
      ((numbers 0 high).map (fun n => (GlobalName.string n).text) ++ p.functions.map
        ("@" ++ ·.name))) := by
  obtain ⟨constants, high, globals, numbered⟩ := h.globals_eq
  have names : (fs.map Routine.prototype).map Prototype.symbol
      = p.functions.map ("@" ++ ·.name) := by
    have same := congrArg (map ("@" ++ ·)) (Program.elaborate_names h.elaborated)
    rw [map_map, map_map] at same
    rw [map_map]
    exact same
  refine ⟨high, ?_⟩
  unfold CodeBuffer.symbols preludeSymbols
  rw [h.prototypes_instrs, globals, filterMap_append, numbered.filterMap_symbol?, map_append, names,
    map_map, append_assoc, append_assoc]
  refine .append_left _ ?_
  rw [← append_assoc, ← append_assoc]
  exact .append_right _ perm_append_comm

theorem calls_mem : ∀ i ∈ b.instrs, ∀ c ∈ i.call?, c ∈ b.prototypes := by
  obtain ⟨last, chain, -⟩ := Program.elaborate_chain h.elaborated
  have prelude : ∀ c ∈ preludePrototypes options.emitRuntime, c ∈ b.prototypes := by
    intro c mem
    rw [h.prototypes_eq]
    exact mem_append_left _ mem
  have body : ∀ f ∈ b.functions, ∀ i ∈ f.body, ∀ c ∈ i.call?, c ∈ b.prototypes := by
    rw [h.functions_eq]
    refine forall_mem_append.mpr ⟨?_, forall_mem_map.mpr fun q mem => ?_⟩
    · exact fun f hf i hi c hc => prelude c (calls_runtimeCode options.emitRuntime f hf i hi c hc)
    · refine Routine.calls_code (chain.callable q.1 (Routine.mem_of_mem_placed mem)) ⟨?_, ?_, ?_⟩
        q.2
      · intro name result parameters call
        rcases call with call | call
        · exact prelude _ (known_runtimeNames options.emitRuntime call)
        · rw [h.prototypes_eq]
          exact mem_append_right _ call
      · exact prelude _ (support_mem options.emitRuntime).1
      · exact prelude _ (support_mem options.emitRuntime).2
  intro i mem c call
  rcases h.mem_function mem with rfl | ⟨f, hf, hi⟩
  · cases call
  · rcases f.mem_lines hi with rfl | hi | rfl
    · cases call
    · exact body f hf i hi c call
    · cases call

/-- No symbol is introduced twice unless a function has the name of one that the program does not
see. -/
theorem nodup_symbols_iff (identifiers : ∀ f ∈ p.functions, isIdentifier f.name = true) :
    b.symbols.Nodup ↔ ∀ f ∈ p.functions, f.name ∉ reservedNames options.emitRuntime := by
  obtain ⟨last, chain, -⟩ := Program.elaborate_chain h.elaborated
  obtain ⟨high, perm⟩ := h.symbols_perm
  obtain ⟨distinct, free⟩ := chain.nodup_names
  rw [Program.elaborate_names h.elaborated] at distinct free
  have constants : ((numbers 0 high).map fun n => (GlobalName.string n).text).Nodup :=
    .map (fun _ _ => GlobalName.eq_of_text_string) nodup_range'
  have functions : (p.functions.map ("@" ++ ·.name)).Nodup := by
    have texts : ((p.functions.map FunctionDef.name).map ("@" ++ ·)).Nodup :=
      distinct.map fun _ _ => (String.append_right_inj "@").mp
    rwa [map_map] at texts
  rw [perm.nodup_iff, nodup_append, nodup_append]
  constructor
  · rintro ⟨-, -, apart⟩ f hf reserved
    have own : "@" ++ f.name ∈ p.functions.map ("@" ++ ·.name) := mem_map.mpr ⟨f, hf, rfl⟩
    exact apart _ (mem_preludeSymbols _ reserved) _ (mem_append_right _ own) rfl
  · intro unreserved
    refine ⟨nodup_preludeSymbols _, ⟨constants, functions, ?_⟩, ?_⟩
    · rintro _ constant _ function rfl
      obtain ⟨n, -, eq⟩ := mem_map.mp constant
      obtain ⟨f, hf, eq'⟩ := mem_map.mp function
      exact text_string_ne_of_isIdentifier (identifiers f hf) n (eq.trans eq'.symm)
    · rintro s fixed _ own rfl
      rcases mem_append.mp own with constant | function
      · obtain ⟨n, -, eq⟩ := mem_map.mp constant
        exact text_string_ne_of_mem_preludeSymbols fixed n eq
      · obtain ⟨f, hf, rfl⟩ := mem_map.mp function
        have mem := mem_of_mem_preludeSymbols fixed (identifiers f hf)
        rcases mem_append.mp mem with reserved | visible
        · exact unreserved f hf reserved
        · have taken := free f.name (mem_map.mpr ⟨f, hf, rfl⟩)
          exact lookup_runtimeNames_ne_none _ visible taken

end Program.Compiled

end Compiled

/-- Every line of a compiled program is one that the compiler knows the shape of. -/
theorem Position.not_isVerbatim_of_walk {p q : Position} {lines : List Instr}
    (h : p.walk lines = some q) : ∀ i ∈ lines, i.isVerbatim = false := by
  intro i mem
  obtain ⟨before, after, rfl⟩ := append_of_mem mem
  obtain ⟨r, r', -, here, -⟩ := exists_next_of_walk h
  rcases next_eq_some here with ⟨-, terminator, -⟩ | ⟨-, inner, -⟩ | ⟨-, ⟨n, rfl⟩, -⟩
  · cases i <;> first | rfl | cases terminator
  · cases i <;> first | rfl | cases inner
  · rfl

/-- Let the functions of a compiled program be named by identifiers. Each line above the functions
introduces a symbol, and no line is of unknown shape. Each symbol is introduced once, and every call
is of the one function with that name and has its types, if and only if no function has the name of
one that the output brings along and the program does not see. -/
theorem Program.compile_linked {p : Program} {options : Options} {text : String}
    (identifiers : ∀ f ∈ p.functions, isIdentifier f.name = true)
    (h : p.compile options = .ok text) :
    ∃ b, p.emit options = .ok b ∧ b.render = .ok text ∧
      (∀ g ∈ b.globals.toList, g.symbol? ≠ none) ∧ (∀ i ∈ b.instrs, i.isVerbatim = false) ∧
      (b.Linked ↔ ∀ f ∈ p.functions, f.name ∉ reservedNames options.emitRuntime) := by
  obtain ⟨fs, registers, b, compiled, rendered⟩ := compiled_of_compile h
  have nodup := compiled.nodup_symbols_iff identifiers
  refine ⟨b, compiled.emitted, rendered, ?_, ?_, fun linked => nodup.mp linked.symbols,
      fun unreserved =>
    CodeBuffer.linked_of_nodup (nodup.mpr unreserved) compiled.calls_mem⟩
  · obtain ⟨constants, high, globals, numbered⟩ := compiled.globals_eq
    rw [globals]
    refine forall_mem_append.mpr ⟨?_, fun g mem => ?_⟩
    · cases options.emitRuntime <;> decide
    · obtain ⟨n, eq⟩ := numbered.constants g mem
      cases g with
      | constant => exact Option.some_ne_none _
      | declare | verbatim => cases eq
  · intro i mem
    rcases compiled.mem_function mem with rfl | ⟨f, hf, hi⟩
    · rfl
    · rcases f.mem_lines hi with rfl | hi | rfl
      · rfl
      · exact Position.not_isVerbatim_of_walk (compiled.walk f hf) i hi
      · rfl

theorem Program.countdown_linked : (∀ f ∈ countdown.functions, isIdentifier f.name = true) ∧
      ∃ text b, countdown.compile {} = .ok text ∧ countdown.emit {} = .ok b ∧ b.Linked := by
  have identifiers : ∀ f ∈ countdown.functions, isIdentifier f.name = true := by decide
  obtain ⟨text, compiled⟩ := countdown_compiles
  obtain ⟨b, emitted, -, -, -, linked⟩ := Program.compile_linked identifiers compiled
  exact ⟨identifiers, text, b, compiled, emitted, linked.mpr (by decide)⟩

/-- A function `exit` beside the entry point. -/
def Program.ownExit : Program where
  functions :=
    [{ name := "exit", returnType := "void", body := [], location := .atLine 1 },
     { name := "main", returnType := "void", body := [] }]

theorem Program.ownExit_accepted : ownExit.accepted = true := by decide +kernel

/-- The program compiles, and the output declares `exit` and defines it as well. -/
theorem Program.ownExit_clashes : (∀ f ∈ ownExit.functions, isIdentifier f.name = true) ∧
      ∃ text b, ownExit.compile {} = .ok text ∧ ownExit.emit {} = .ok b ∧
        b.symbols.count "@exit" = 2 ∧ ¬b.Linked := by
  have identifiers : ∀ f ∈ ownExit.functions, isIdentifier f.name = true := by decide
  obtain ⟨text, compiles⟩ := compiles_of_accepted (exists_of_accepted ownExit_accepted) (by decide)
  obtain ⟨fs, registers, b, compiled, -⟩ := compiled_of_compile compiles
  obtain ⟨high, perm⟩ := compiled.symbols_perm
  have constants : ((numbers 0 high).map fun n => (GlobalName.string n).text).count "@exit"
      = 0 := by
    refine count_eq_zero.mpr fun mem => ?_
    have prelude : "@exit" ∈ preludeSymbols true := by decide
    obtain ⟨n, -, eq⟩ := mem_map.mp mem
    exact text_string_ne_of_mem_preludeSymbols prelude n eq
  have twice : b.symbols.count "@exit" = 2 := by
    rw [perm.count_eq, List.count_append, List.count_append, constants]
    decide
  refine ⟨identifiers, text, b, compiles, compiled.emitted, twice, fun linked => ?_⟩
  have once := nodup_iff_count.mp linked.symbols "@exit"
  omega

end Backpatch
