import Backpatch.Proofs.Core.Entry
import Backpatch.Proofs.Placeholders

/-!
# The functions of the finished code

The finished buffer is a row of functions, each from its head to its end. `CodeBuffer.functions`
reads them off the lines, and for a program that compiles they are the functions of the runtime, if
it is asked for, and then those of the program in the order of the source
(`Program.Compiled.functions_eq`). What is claimed of every function of the output is proved of the
code of a routine, by that.
-/

namespace Backpatch

open List

/-! ## Functions in a list of lines -/

/-- One function of the output: what its head says, and the lines up to its end. -/
structure FunctionCode where
  result : IrType
  name : String
  parameters : List IrType
  body : List Instr
  deriving DecidableEq

def Instr.isDefine : Instr → Bool
  | .define .. => true
  | _ => false

def Instr.isClose : Instr → Bool
  | .close => true
  | _ => false

namespace FunctionCode

def head (f : FunctionCode) : Instr := .define f.result f.name f.parameters

/-- The lines from the head to the end. -/
def lines (f : FunctionCode) : List Instr := f.head :: f.body ++ [Instr.close]

/-- The function as it stands in the buffer, with the blank line behind it. -/
def written (f : FunctionCode) : List Instr := f.lines ++ [Instr.blank]

/-- The functions among the lines: each begins with a head and ends before the next closing line. -/
def ofLines : List Instr → List FunctionCode
  | [] => []
  | .define result name parameters :: rest =>
    ⟨result, name, parameters, rest.takeWhile (!·.isClose)⟩ :: ofLines rest
  | _ :: rest => ofLines rest

/-- No other function begins or ends inside. -/
def Whole (f : FunctionCode) : Prop := ∀ i ∈ f.body, i.isDefine = false ∧ i.isClose = false

theorem ofLines_cons {i : Instr} (h : i.isDefine = false) (rest : List Instr) :
    ofLines (i :: rest) = ofLines rest := by
  cases i with
  | define result name parameters => cases h
  | _ => rfl

theorem ofLines_append {xs : List Instr} (h : ∀ i ∈ xs, i.isDefine = false) (rest : List Instr) :
    ofLines (xs ++ rest) = ofLines rest := by
  induction xs with
  | nil => rfl
  | cons i xs ih =>
    rw [cons_append, ofLines_cons (h i mem_cons_self)]
    exact ih fun j mem => h j (mem_cons_of_mem _ mem)

/-- A function that is whole is found, and the search goes on behind it. -/
theorem ofLines_written {f : FunctionCode} (h : f.Whole) (rest : List Instr) :
    ofLines (f.written ++ rest) = f :: ofLines rest := by
  have body : (f.body ++ Instr.close :: Instr.blank :: rest).takeWhile (!·.isClose) = f.body := by
    rw [takeWhile_append_of_pos fun i mem => by rw [(h i mem).2]; rfl]
    exact List.append_nil _
  have behind : ofLines (f.body ++ Instr.close :: Instr.blank :: rest) = ofLines rest :=
    ofLines_append (fun i mem => (h i mem).1) _
  have split : f.written ++ rest
      = .define f.result f.name f.parameters :: (f.body ++ Instr.close :: Instr.blank :: rest) := by
    simp [written, lines, head]
  rw [split, ofLines, body, behind]

theorem ofLines_flatMap {fs : List FunctionCode} (h : ∀ f ∈ fs, f.Whole) :
    ofLines (fs.flatMap written) = fs := by
  induction fs with
  | nil => rfl
  | cons f fs ih =>
    rw [flatMap_cons, ofLines_written (h f mem_cons_self)]
    exact congrArg (f :: ·) (ih fun g mem => h g (mem_cons_of_mem _ mem))

/-- The function as it stands in the buffer: its head and its end at one level, its body below. -/
def laidOut (f : FunctionCode) (level : Nat) : List Line :=
  [f.head].map (Instr.atLevel level) ++ f.body.map (Instr.atLevel (level + 1))
    ++ [Instr.close, Instr.blank].map (Instr.atLevel level)

theorem instrs_laidOut (f : FunctionCode) (level : Nat) :
    (f.laidOut level).map Line.instr = f.written := by
  have same (n : Nat) : Line.instr ∘ Instr.atLevel n = id := funext (Instr.atLevel_instr n)
  simp [laidOut, written, lines, same, Instr.atLevel_instr]

end FunctionCode

namespace CodeBuffer

/-- The lines without their indentation. -/
def instrs (b : CodeBuffer) : List Instr := b.lines.toList.map Line.instr

/-- The functions that the lines define. -/
def functions (b : CodeBuffer) : List FunctionCode := FunctionCode.ofLines b.instrs

theorem instrs_append (b : CodeBuffer) (code : List Instr) (globals : List Global) :
    (b.append code globals).instrs = b.instrs ++ code := by
  have lines : code.map (Line.instr ∘ Instr.atLevel b.level) = code.map id :=
    map_congr_left fun i _ => Instr.atLevel_instr b.level i
  unfold instrs append
  rw [Array.toList_append, map_append, map_map, lines, map_id]

theorem lines_addFunction (b : CodeBuffer) (f : FunctionCode) (globals : List Global) :
    (b.addFunction f.head f.body globals).lines.toList = b.lines.toList ++ f.laidOut b.level := by
  simp [addFunction, append, increaseIndent, decreaseIndent, FunctionCode.laidOut]

theorem level_addFunction (b : CodeBuffer) (head : Instr) (body : List Instr)
    (globals : List Global) : (b.addFunction head body globals).level = b.level := by
  simp [addFunction, append, increaseIndent, decreaseIndent]

end CodeBuffer

/-! ## Functions of routines -/

namespace Routine

/-- The code of a function, when these names are free. -/
def function (f : Routine) (s : NameSupply) : FunctionCode where
  result := f.returnType.ir
  name := f.name
  parameters := f.parameters.map Ty.ir
  body := (f.code s).steps.map (Step.instr Step.noExits)

/-- Functions one after the other, each with the names that are free before it. -/
def placed : List Routine → NameSupply → List (Routine × NameSupply)
  | [], _ => []
  | f :: fs, s => (f, s) :: placed fs (f.code s).names

theorem map_placed (fs : List Routine) (s : NameSupply) : (placed fs s).map Prod.fst = fs := by
  induction fs generalizing s with
  | nil => rfl
  | cons f fs ih => exact congrArg (f :: ·) (ih _)

theorem mem_of_mem_placed {fs : List Routine} {s : NameSupply} {q : Routine × NameSupply}
    (h : q ∈ placed fs s) : q.1 ∈ fs := by
  rw [← map_placed fs s]
  exact mem_map_of_mem h

theorem lines_addAll (fs : List Routine) (s : NameSupply) (b : CodeBuffer) :
    (addAll fs s b).2.lines.toList = b.lines.toList
      ++ ((placed fs s).map fun q => q.1.function q.2).flatMap (·.laidOut b.level) := by
  induction fs generalizing s b with
  | nil => exact (List.append_nil _).symm
  | cons f fs ih =>
    have first : (f.add s b).lines.toList = b.lines.toList ++ (f.function s).laidOut b.level :=
      b.lines_addFunction (f.function s) _
    have level : (f.add s b).level = b.level := b.level_addFunction _ _ _
    unfold addAll placed
    rw [ih, first, level, append_assoc]
    rfl

theorem globals_addAll (fs : List Routine) (s : NameSupply) (b : CodeBuffer) :
    (addAll fs s b).2.globals.toList
      = b.globals.toList ++ (placed fs s).flatMap fun q => (q.1.code q.2).globals := by
  induction fs generalizing s b with
  | nil => exact (List.append_nil _).symm
  | cons f fs ih =>
    have first : (f.add s b).globals.toList = b.globals.toList ++ (f.code s).globals := by
      simp [Routine.add, CodeBuffer.addFunction, CodeBuffer.append, CodeBuffer.increaseIndent,
        CodeBuffer.decreaseIndent]
    unfold addAll placed
    rw [ih, first, append_assoc]
    rfl

end Routine

/-! ## Compiled programs -/

theorem Position.whole_of_walk {p q : Position} {lines : List Instr} (h : p.walk lines = some q) :
    ∀ i ∈ lines, i.isDefine = false ∧ i.isClose = false := by
  induction lines generalizing p with
  | nil => exact forall_mem_nil _
  | cons i lines ih =>
    rw [walk_cons] at h
    obtain ⟨r, here, h⟩ := Option.bind_eq_some_iff.mp h
    refine forall_mem_cons.mpr ⟨?_, ih h⟩
    rcases next_eq_some here with ⟨-, terminator, -⟩ | ⟨-, inner, -⟩ | ⟨-, ⟨n, rfl⟩, -⟩
    · cases i <;> first | exact ⟨rfl, rfl⟩ | cases terminator
    · cases i <;> first | exact ⟨rfl, rfl⟩ | cases inner
    · exact ⟨rfl, rfl⟩

theorem Routine.whole_function (f : Routine) (s : NameSupply) : (f.function s).Whole :=
  Position.whole_of_walk (Reading.walk_of_read (f.read_code s))

/-- The functions of the runtime, where the program brings them along. -/
def runtimeCode (emitRuntime : Bool) : List FunctionCode :=
  if emitRuntime then
    [⟨.void, "printi", [.i32], Prelude.printerBody .i32 ".int_specifier"⟩,
     ⟨.void, "print", [.pointer], Prelude.printerBody .pointer ".str_specifier"⟩,
     ⟨.void, zeroDivisionHandler, [], Prelude.zeroDivisionBody⟩]
  else []

/-- Both preludes are made of whole functions. -/
theorem Options.lines_prelude (options : Options) :
    options.prelude.lines.toList = (runtimeCode options.emitRuntime).flatMap (·.laidOut 0) := by
  rw [options.prelude_lines]
  generalize options.emitRuntime = emitRuntime
  cases emitRuntime <;> decide +kernel

theorem Options.level_prelude (options : Options) : options.prelude.level = 0 := by
  obtain ⟨emitRuntime, width⟩ := options
  cases emitRuntime <;> rfl

theorem walk_runtimeCode (emitRuntime : Bool) :
    ∀ f ∈ runtimeCode emitRuntime, Position.inside.walk f.body = some .between := by
  cases emitRuntime <;> decide

/-- The body of the function is a region that has no other end than that of the function. -/
def FunctionCode.Structured (f : FunctionCode) : Prop :=
  Leaves (Routine.Entry f.parameters.length) Outlets.empty f.body

theorem structured_runtimeCode (emitRuntime : Bool) :
    ∀ f ∈ runtimeCode emitRuntime, f.Structured := by
  have printer (type : IrType) (name format : String) :
      FunctionCode.Structured ⟨.void, name, [type], Prelude.printerBody type format⟩ := by
    have address : Passes (Routine.Entry 1) [.stringAddress (.named "%spec_ptr") 4 (.named format)]
        _ :=
      .line rfl (forall_mem_nil _)
    have call : Passes ((Routine.Entry 1).add (some (.named "%spec_ptr")))
        [.callVariadic .i32 [.pointer] "printf"
          [(.pointer, .register (.named "%spec_ptr")), (type, .register (.argument 0))]] _ :=
      .line rfl (forall_mem_cons.mpr
        ⟨.inr rfl, forall_mem_singleton.mpr (.inl ⟨0, Nat.one_pos, rfl⟩)⟩)
    exact .after (address.append call) (.ret (forall_mem_nil _))
  have handler : FunctionCode.Structured ⟨.void, zeroDivisionHandler, [],
      Prelude.zeroDivisionBody⟩ := by
    have address : Passes (Routine.Entry 0)
        [.stringAddress (.named "%message") 23 (.named ".zero_div_message")] _ :=
      .line rfl (forall_mem_nil _)
    have print : Passes ((Routine.Entry 0).add (some (.named "%message")))
        [.call none "print" [(.pointer, .register (.named "%message"))]] _ :=
      .line rfl (forall_mem_singleton.mpr (.inr rfl))
    have exit : ∀ D, Passes D [.call none "exit" [(.i32, .number 0)]] _ :=
      fun _ => .line rfl (forall_mem_nil _)
    exact .after ((address.append print).append (exit _)) (.ret (forall_mem_nil _))
  cases emitRuntime with
  | false => exact forall_mem_nil _
  | true => exact forall_mem_cons.mpr ⟨printer .i32 _ _, forall_mem_cons.mpr
      ⟨printer .pointer _ _, forall_mem_singleton.mpr handler⟩⟩

theorem Routine.structured_function {f : Routine} {limit : Nat} {Q : Signatures}
    (h : f.Scoped limit Q) (s : NameSupply) : (f.function s).Structured := by
  unfold FunctionCode.Structured
  have length : (f.function s).parameters.length = f.parameters.length := length_map _
  rw [length]
  exact leaves_code h s

/-- The program compiles: its functions are these, the code of which stands in the buffer. -/
structure Program.Compiled (p : Program) (options : Options) (fs : List Routine) (registers : Nat)
    (b : CodeBuffer) : Prop where
  elaborated : p.elaborate = .ok (fs, registers)
  emitted : p.emit options = .ok b
  buffer : b = (Routine.addAll fs { registers := registers } options.prelude).2

section Compiled

variable {p : Program} {options : Options} {text : String} {fs : List Routine} {registers : Nat}
  {b : CodeBuffer}

/-- Only accepted programs with clean names have code. -/
theorem Program.compiled_of_emit (emitted : p.emit options = .ok b) :
    ∃ fs registers, p.Compiled options fs registers b := by
  have code := emitted
  unfold Program.emit at code
  split at code
  · cases code
  · cases code
  · rename_i tree c analyzed
    obtain ⟨fs, registers, elaborated, checked⟩ := checked_of_analyze analyzed
    have clean : ∀ f ∈ fs, Clean f.name := by
      refine Classical.byContradiction fun unclean => ?_
      obtain ⟨line, refused⟩ := checked.generate_error elaborated (by simpa using unclean)
      rw [refused] at code
      cases code
    obtain ⟨exits, c', generated, -, buffer⟩ := checked.generate_ok elaborated clean
    rw [generated] at code
    cases code
    exact ⟨fs, registers, elaborated, emitted, buffer⟩

/-- What has a text has code. -/
theorem Program.compiled_of_compile (h : p.compile options = .ok text) :
    ∃ fs registers b, p.Compiled options fs registers b ∧ b.render = .ok text := by
  unfold Program.compile at h
  obtain ⟨b, emitted, h⟩ := of_bind_eq_ok h
  obtain ⟨fs, registers, compiled⟩ := compiled_of_emit emitted
  refine ⟨fs, registers, b, compiled, ?_⟩
  cases rendered : b.render with
  | error fault =>
    rw [rendered] at h
    cases h
  | ok text' =>
    rw [rendered] at h
    cases h
    rfl

namespace Program.Compiled

variable (h : p.Compiled options fs registers b)

include h

theorem lines_eq :
    b.lines.toList = (runtimeCode options.emitRuntime
      ++ (Routine.placed fs { registers := registers }).map fun q => q.1.function q.2).flatMap
      (·.laidOut 0) := by
  rw [h.buffer, Routine.lines_addAll, options.lines_prelude, options.level_prelude, flatMap_append]

theorem instrs_eq :
    b.instrs = (runtimeCode options.emitRuntime
      ++ (Routine.placed fs { registers := registers }).map fun q => q.1.function q.2).flatMap
      FunctionCode.written := by
  unfold CodeBuffer.instrs
  rw [h.lines_eq, map_flatMap]
  exact congrArg (List.flatMap · _) (funext fun f => f.instrs_laidOut 0)

/-- The functions of the output: those of the runtime, and those of the program in their order. -/
theorem functions_eq :
    b.functions = runtimeCode options.emitRuntime
      ++ (Routine.placed fs { registers := registers }).map fun q => q.1.function q.2 := by
  unfold CodeBuffer.functions
  rw [h.instrs_eq]
  refine FunctionCode.ofLines_flatMap (forall_mem_append.mpr ⟨?_, forall_mem_map.mpr ?_⟩)
  · exact fun f mem => Position.whole_of_walk (walk_runtimeCode _ f mem)
  · exact fun q _ => q.1.whole_function q.2

theorem walk : ∀ f ∈ b.functions, Position.inside.walk f.body = some .between := by
  rw [h.functions_eq]
  refine forall_mem_append.mpr ⟨walk_runtimeCode _, forall_mem_map.mpr fun q _ => ?_⟩
  exact Reading.walk_of_read (q.1.read_code q.2)

/-- There is nothing in the output but functions. -/
theorem instrs_functions : b.instrs = b.functions.flatMap FunctionCode.written := by
  rw [h.functions_eq, h.instrs_eq]

theorem structured : ∀ f ∈ b.functions, f.Structured := by
  obtain ⟨globals, chain, -⟩ := Program.elaborate_chain h.elaborated
  rw [h.functions_eq]
  refine forall_mem_append.mpr ⟨structured_runtimeCode _, forall_mem_map.mpr fun q mem => ?_⟩
  obtain ⟨Q, refers⟩ := chain.scoped q.1 (Routine.mem_of_mem_placed mem)
  exact Routine.structured_function refers q.2

/-- The functions of the output have the names of those of the source. -/
theorem names_functions : b.functions.map FunctionCode.name
      = (runtimeCode options.emitRuntime).map FunctionCode.name
        ++ p.functions.map FunctionDef.name := by
  let s : NameSupply := { registers := registers }
  have names : ((Routine.placed fs s).map fun q => q.1.function q.2).map FunctionCode.name
      = fs.map Routine.name := by
    have heads : ((Routine.placed fs s).map Prod.fst).map Routine.name = fs.map Routine.name :=
      congrArg _ (Routine.map_placed fs s)
    rw [map_map] at heads ⊢
    exact heads
  rw [h.functions_eq, map_append, names, Program.elaborate_names h.elaborated]

end Program.Compiled

end Compiled

/-- A program that is accepted, with clean names, has a text. -/
theorem Program.compiles_of_accepted {p : Program}
    (h : ∃ tree c, p.analyze (.start {}) = .ok (.ok tree, c))
    (clean : ∀ f ∈ p.functions, Clean f.name) :
    ∃ text, p.compile {} = .ok text := by
  obtain ⟨tree, c, analyzed⟩ := h
  obtain ⟨exits, c', generated, -, closed, -⟩ := generate_closed analyzed clean
  refine ⟨c'.buffer.text, ?_⟩
  rw [compile_of_analyze analyzed, generated]
  show (c'.buffer.render).mapError _ = _
  rw [CodeBuffer.render_of_openRecords closed]
  rfl

theorem Program.countdown_compiles : ∃ text, countdown.compile {} = .ok text :=
  compiles_of_accepted countdown_accepted (by decide)

end Backpatch
