import Backpatch.Proofs.Output.Functions

/-!
# A machine for the generated code

What the lines of the generated code mean: a state is a stack of activations, and a step executes
the next line of the topmost one. The machine is stuck where the meaning of a line is undefined,
such as a division by zero, a register that has no value, or a place in memory that nothing has been
stored to. The functions of the runtime are known by what they do: they are observed as events, or
end the run.

The quotient of the least number and minus one does not fit into a register. What it is, if
anything, is a parameter of the machine.
-/

namespace Backpatch

abbrev Word := BitVec 32

/-- What a run shows: the bytes of a text that is printed, or a number. -/
inductive Event
  | text (bytes : List UInt8)
  | number (value : Word)
  deriving DecidableEq, Repr

/-- How a run ends: the program exits, or its entry point returns. -/
inductive Ending
  | exited (status : Word)
  | returned
  deriving DecidableEq, Repr

/-- What is printed when a program divides by zero. -/
def zeroDivisionMessage : List UInt8 := "Error division by zero".toUTF8.toList

example : Text.constantBody "Error division by zero" = "Error division by zero\\00" := by
  decide +kernel

/-! ## Values -/

/-- What a register holds: a number, a truth value, the address of a constant, or the address of a
cell in a block of memory, which is named by the register that it has been reserved for. -/
inductive Datum
  | word (value : Word)
  | truth (value : Bool)
  | text (constant : GlobalName)
  | address (block : Register) (index : Int)
  deriving DecidableEq, Repr

def Opcode.apply (overflow : Option Word) : Opcode → Word → Word → Option Word
  | add, a, b => some (a + b)
  | sub, a, b => some (a - b)
  | mul, a, b => some (a * b)
  | sdiv, a, b =>
    if b = 0 then none
    else if a = BitVec.intMin 32 ∧ b = -1 then overflow
    else some (a.sdiv b)
  | udiv, a, b => if b = 0 then none else some (a.udiv b)
  | and, a, b => some (a &&& b)

def Predicate.holds : Predicate → Word → Word → Bool
  | eq, a, b => a == b
  | ne, a, b => a != b
  | sgt, a, b => b.slt a
  | ugt, a, b => b.ult a
  | sge, a, b => b.sle a
  | uge, a, b => b.ule a
  | slt, a, b => a.slt b
  | ult, a, b => a.ult b
  | sle, a, b => a.sle b
  | ule, a, b => a.ule b

/-! ## Memory -/

/-- The blocks that a function has reserved, with what has been stored to their cells. -/
abbrev Memory := Register → Option (List (Option Word))

namespace Memory

def read (m : Memory) (block : Register) (index : Int) : Option Word :=
  match m block with
  | some cells => if 0 ≤ index then (cells[index.toNat]?).join else none
  | none => none

def write (m : Memory) (block : Register) (index : Int) (value : Word) : Option Memory :=
  match m block with
  | some cells =>
    if 0 ≤ index ∧ index.toNat < cells.length then
      some fun r => if r = block then some (cells.set index.toNat (some value)) else m r
    else none
  | none => none

theorem read_write {m m' : Memory} {block : Register} {index : Int} {value : Word}
    (h : m.write block index value = some m') (block' : Register) (index' : Int) :
    m'.read block' index' = if block' = block ∧
      index' = index then some value else m.read block' index' := by
  unfold write at h
  split at h
  · rename_i cells found
    split at h
    · rename_i inside
      cases h
      unfold read
      by_cases here : block' = block
      · subst here
        simp only [if_true, found, true_and]
        by_cases same : index' = index
        · simp [same, inside]
        · simp only [same, if_false]
          split
          · have apart : index.toNat ≠ index'.toNat := by omega
            rw [List.getElem?_set_ne apart]
          · rfl
      · simp [here]
    · cases h
  · cases h

end Memory

/-! ## States -/

/-- The lines behind a label. -/
def linesAfter (l : Label) : List Instr → Option (List Instr)
  | [] => none
  | i :: rest => if i = .label l then some rest else linesAfter l rest

/-- A function that is being executed. -/
structure Activation where
  function : FunctionCode
  /-- The lines that are executed next. -/
  rest : List Instr
  /-- The label of the block that is executed. -/
  block : Option Label := none
  /-- The label of the block before. -/
  origin : Option Label := none
  values : Register → Option Datum
  memory : Memory := fun _ => none

/-- The code that is executed: functions, and constants with their bytes. -/
structure Image where
  functions : List FunctionCode
  constants : GlobalName → Option (List UInt8)

/-- A caller that waits, with the register for the result. -/
structure Caller where
  result : Option Register
  activation : Activation

inductive State
  | running (top : Activation) (callers : List Caller) (trace : List Event)
  | ended (ending : Ending) (trace : List Event)

namespace Activation

def value (a : Activation) : Operand → Option Datum
  | .register r => a.values r
  | .number n => some (.word (BitVec.ofInt 32 n))

/-- The operand as a number. -/
def word (a : Activation) (operand : Operand) : Option Word :=
  match a.value operand with
  | some (.word w) => some w
  | _ => none

def set (a : Activation) (r : Register) (d : Datum) : Activation :=
  { a with values := fun r' => if r' = r then some d else a.values r' }

/-- Reserves a block. Its name stands for one block only. -/
def reserve (a : Activation) (r : Register) (size : Nat) : Option Activation :=
  match a.memory r with
  | some _ => none
  | none =>
    some { a.set r (.address r 0) with
      memory := fun r' => if r' = r then some (List.replicate size none) else a.memory r' }

/-- Goes on behind the label. -/
def goto (a : Activation) : Target → Option Activation
  | some l =>
    (linesAfter l a.function.body).map fun rest =>
      { a with rest := rest, block := some l, origin := a.block }
  | none => none

/-- Executes a line after which the next one is executed. -/
def exec (M : Image) (overflow : Option Word) (a : Activation) : Instr → Option Activation
  | .allocaFrame size => a.reserve .frame size.toNat
  | .allocaSlot slot => a.reserve slot 1
  | .store value pointer =>
    match a.word value, a.values pointer with
    | some w, some (.address block index) => (a.memory.write block index w).map fun m =>
      { a with memory := m }
    | _, _ => none
  | .load result pointer =>
    match a.values pointer with
    | some (.address block index) => (a.memory.read block index).map fun w => a.set result (.word w)
    | _ => none
  | .compute result opcode left right =>
    match a.word left, a.word right with
    | some x, some y => (opcode.apply overflow x y).map fun w => a.set result (.word w)
    | _, _ => none
  | .compare result predicate left right =>
    match a.word left, a.word right with
    | some x, some y => some (a.set result (.truth (predicate.holds x y)))
    | _, _ => none
  | .phi result _ first firstFrom second secondFrom =>
    if a.origin = some firstFrom then (a.value first).map (a.set result)
    else if a.origin = some secondFrom then (a.value second).map (a.set result)
    else none
  | .stringAddress result length constant =>
    if (M.constants constant).map List.length
      = some length then some (a.set result (.text constant)) else none
  | .slotAddress result _ offset =>
    match a.values .frame with
    | some (.address block index) => some (a.set result (.address block (index + offset)))
    | _ => none
  | _ => none

end Activation

/-- The function as it begins. -/
def FunctionCode.start (f : FunctionCode) (arguments : List Datum) : Activation where
  function := f
  rest := f.body
  values
    | .argument index => arguments[index]?
    | _ => none

/-! ## Calls -/

/-- The functions that are known by what they do. -/
inductive Primitive
  | print
  | printi
  | exit
  | zeroDivision
  deriving DecidableEq, Repr

def Primitive.name : Primitive → String
  | print => "print"
  | printi => "printi"
  | exit => "exit"
  | zeroDivision => zeroDivisionHandler

def Primitive.ofName? (name : String) : Option Primitive :=
  [print, printi, exit, zeroDivision].find? (·.name == name)

namespace Image

/-- The function of this name. -/
def function? (M : Image) (name : String) : Option FunctionCode :=
  M.functions.find? (·.name == name)

/-- The bytes of the text that a constant holds: those before the closing zero. -/
def text? (M : Image) (constant : GlobalName) : Option (List UInt8) :=
  match M.constants constant with
  | some bytes => if bytes.getLast? = some 0 then some bytes.dropLast else none
  | none => none

/-- What a primitive function shows, and the status if it ends the run. -/
def perform (M : Image) : Primitive → List Datum → Option (List Event × Option Word)
  | .print, [.text constant] => (M.text? constant).map fun bytes => ([.text bytes], none)
  | .printi, [.word w] => some ([.number w], none)
  | .exit, [.word w] => some ([], some w)
  | .zeroDivision, [] => some ([.text zeroDivisionMessage], some 0)
  | _, _ => none

end Image

namespace State

/-- Calls a function from an activation that goes on with its next line afterwards. -/
def call (M : Image) (a : Activation) (callers : List Caller) (trace : List Event)
    (result : Option Register) (callee : String) (arguments : List Datum) : Option State :=
  match Primitive.ofName? callee, result with
  | some primitive, none =>
    (M.perform primitive arguments).map fun (events, status) =>
      match status with
      | none => running a callers (trace ++ events)
      | some w => ended (.exited w) (trace ++ events)
  | some _, some _ => none
  | none, result =>
    match M.function? callee with
    | some f =>
      if f.parameters.length = arguments.length then
        some (running (f.start arguments) (⟨result, a⟩ :: callers) trace)
      else none
    | none => none

/-- Goes back to the caller with a value, if there is one. -/
def leave (trace : List Event) : List Caller → Option Datum → Option State
  | [], _ => some (ended .returned trace)
  | ⟨none, a⟩ :: callers, none => some (running a callers trace)
  | ⟨some r, a⟩ :: callers, some d => some (running (a.set r d) callers trace)
  | _, _ => none

/-- Executes a line; the activation is already behind it. -/
def execute (M : Image) (overflow : Option Word) (a : Activation) (callers : List Caller)
    (trace : List Event) : Instr → Option State
  | .jump target => (a.goto target).map (running · callers trace)
  | .branch condition onTrue onFalse =>
    match a.values condition with
    | some (.truth b) => (a.goto (if b then onTrue else onFalse)).map (running · callers trace)
    | _ => none
  | .call result callee arguments =>
    (arguments.mapM fun argument => a.value argument.2).bind
      (call M a callers trace (result.map Prod.fst) callee)
  | .ret none => leave trace callers none
  | .ret (some (_, operand)) => (a.value operand).bind fun d => leave trace callers (some d)
  | i => (a.exec M overflow i).map (running · callers trace)

/-- One step of the machine, where there is one. -/
def step (M : Image) (overflow : Option Word) : State → Option State
  | running a callers trace =>
    match a.rest with
    | i :: rest => execute M overflow { a with rest := rest } callers trace i
    | [] => none
  | ended _ _ => none

/-- Zero or more steps lead from a state to another. -/
inductive Steps (M : Image) (overflow : Option Word) : State → State → Prop
  | refl (s : State) : Steps M overflow s s
  | head {s s' t : State} (first : s.step M overflow = some s') (rest : Steps M overflow s' t) :
      Steps M overflow s t

end State

namespace Image

/-- The state in which a run begins. -/
def start (M : Image) : Option State :=
  (M.function? "main").map fun f => .running (f.start []) [] []

/-- The state is reached by the run. -/
def Reaches (M : Image) (overflow : Option Word) (s : State) : Prop :=
  ∃ first, M.start = some first ∧ first.Steps M overflow s

/-- The run ends, and has shown the events. -/
def Runs (M : Image) (overflow : Option Word) (trace : List Event) (ending : Ending) : Prop :=
  M.Reaches overflow (.ended ending trace)

end Image

/-- A constant with what is written in it. -/
def Global.contents? : Global → Option (GlobalName × List Char)
  | .constant name _ body => some (name, body.toList)
  | _ => none

/-- The code of a buffer, as it is executed. -/
def CodeBuffer.image (b : CodeBuffer) : Image where
  functions := b.functions
  constants :=
    fun name => ((b.globals.toList.filterMap Global.contents?).lookup name).bind Text.decode

end Backpatch
