import Backpatch.Code.Emission
import Backpatch.Code.Prelude
import Backpatch.Proofs.Code.Step
import Backpatch.Proofs.Core.Term
import Backpatch.Text.Constant

/-!
# Code of core terms

The code of each kind of term, test and action, as a function of the names that are still free. A
term leaves its value in the register `place`. A test is open code with the exits `true` and
`false`, and an action open code with the exits `Leave`; whoever uses a test or an action connects
its exits. Nothing is written twice and nothing is filled in later: `Backpatch.Proofs.Emission`
shows that the emission of a tree writes this code.
-/

namespace Backpatch

namespace NameSupply

def register (s : NameSupply) : Register := .temp s.registers

def label (s : NameSupply) : Label := .numbered s.labels

def global (s : NameSupply) : GlobalName := .string s.globals

def nextRegister (s : NameSupply) : NameSupply := { s with registers := s.registers + 1 }

def nextLabel (s : NameSupply) : NameSupply := { s with labels := s.labels + 1 }

def nextGlobal (s : NameSupply) : NameSupply := { s with globals := s.globals + 1 }

end NameSupply

/-- Open code, with the constants that it uses and the names that are free after it. -/
structure Code (W : Type) where
  steps : List (Step W)
  globals : List Global := []
  names : NameSupply

/-- Closed code that leaves a value in a register. -/
structure TermCode extends Code Empty where
  place : Register

/-- Closed code that leaves the values of arguments. -/
structure ArgumentsCode extends Code Empty where
  operands : List (IrType × Operand)

/-- The representation of a type that has one. -/
def Ty.ir (type : Ty) : IrType := type.ir?.getD .i32

/-! ## Parts -/

def loadCode (pointer : Register) (s : NameSupply) : TermCode :=
  { steps := [.line (.load s.register pointer)]
    names := s.nextRegister
    place := s.register }

/-- The value at a place. A parameter without a place of its own is where the caller has put it. -/
def Place.code (frame : Frame) (s : NameSupply) : Place → TermCode
  | .variable pointer => loadCode (.temp pointer) s
  | .parameter index =>
    match frame.slots[index]? with
    | some (some slot) => loadCode slot s
    | _ => { steps := [], names := s, place := .argument index }

/-- The register with the address of a place that is assigned to. -/
def Place.pointer (frame : Frame) : Place → Register
  | .variable pointer => .temp pointer
  | .parameter index => ((frame.slots[index]?).join).getD (.argument index)

def branchOn (condition : Register) : Step Bool := .branch condition (.via true) (.via false)

/-- Tests a number against zero. -/
def TermCode.nonzero (c : TermCode) : Code Bool :=
  { steps := c.steps.map Step.lift ++
      [.line (.compare c.names.register .ne (.register c.place) (.number 0)),
       branchOn c.names.register]
    globals := c.globals
    names := c.names.nextRegister }

def toLabels {W : Type} (onTrue onFalse : Label) : Bool → Exit W
  | true => .goto onTrue
  | false => .goto onFalse

/-- Makes a test a number, 0 or 1. -/
def Code.materialize (c : Code Bool) : TermCode :=
  let onTrue := c.names.label
  let onFalse := c.names.nextLabel.label
  let join := c.names.nextLabel.nextLabel.label
  let names := c.names.nextLabel.nextLabel.nextLabel
  { steps := c.steps.map (Step.bind (toLabels onTrue onFalse)) ++
      [.line (.label onTrue), .jump (.goto join), .line (.label onFalse), .jump (.goto join),
       .line (.label join),
       .line (.phi names.register .i32 (.number 1) onTrue (.number 0) onFalse)]
    globals := c.globals
    names := names.nextRegister
    place := names.register }

/-- Calls the handler when the divisor is zero. -/
def guardCode (divisor : Register) (s : NameSupply) : Code Empty :=
  let isZero := s.register
  let error := s.nextRegister.label
  let divide := s.nextRegister.nextLabel.label
  { steps :=
      [.line (.compare isZero .eq (.register divisor) (.number 0)),
       .branch isZero (.goto error) (.goto divide), .line (.label error),
       .line (.call none zeroDivisionHandler []), .jump (.goto divide), .line (.label divide)]
    names := s.nextRegister.nextLabel.nextLabel }

def cutCode (value : Register) (s : NameSupply) : TermCode :=
  { steps := [.line (.compute s.register .and (.register value) (.number 255))]
    names := s.nextRegister
    place := s.register }

/-- An operation without the guard of a division. -/
def computeCode (operator : Arithmetic) (type : Ty) (left right : Register) (s : NameSupply) :
    TermCode :=
  let raw : Step Empty := .line
    (.compute s.register (operator.opcode type.isSigned) (.register left) (.register right))
  if type = .byte then
    let cut := cutCode s.register s.nextRegister
    { cut with steps := raw :: cut.steps }
  else { steps := [raw], names := s.nextRegister, place := s.register }

def arithmeticCode (operator : Arithmetic) (type : Ty) (left right : Register) (s : NameSupply) :
    TermCode :=
  if operator = .div then
    let guarded := guardCode right s
    let result := computeCode operator type left right guarded.names
    { result with steps := guarded.steps ++ result.steps }
  else computeCode operator type left right s

/-! ## Terms and tests -/

mutual

def Term.code (frame : Frame) : Term → NameSupply → TermCode
  | .number value, s =>
    { steps := [.line (.compute s.register .add (.number 0) (.number value))]
      names := s.nextRegister
      place := s.register }
  | .text text, s =>
    let length := Text.constantLength text
    { steps := [.line (.stringAddress s.register length s.global)]
      globals := [.constant s.global length (Text.constantBody text)]
      names := s.nextGlobal.nextRegister
      place := s.register }
  | .read place, s => place.code frame s
  | .call name result arguments, s =>
    let a := arguments.code frame s
    { steps := a.steps ++ [.line (.call (some (a.names.register, result)) name a.operands)]
      globals := a.globals
      names := a.names.nextRegister
      place := a.names.register }
  | .truth test, s => (test.code frame s).materialize
  | .arithmetic operator type left right, s =>
    let a := left.code frame s
    let b := right.code frame a.names
    let c := arithmeticCode operator type a.place b.place b.names
    { c with
      steps := a.steps ++ b.steps ++ c.steps
      globals := a.globals ++ b.globals ++ c.globals }
  | .cut operand, s =>
    let a := operand.code frame s
    let c := cutCode a.place a.names
    { c with steps := a.steps ++ c.steps, globals := a.globals }
  | .same operand, s => operand.code frame s
  | .choice type condition thenValue elseValue, s =>
    let c := condition.code frame s
    let thenLabel := c.names.label
    let a := thenValue.code frame c.names.nextLabel
    let thenExit := a.names.label
    let elseLabel := a.names.nextLabel.label
    let b := elseValue.code frame a.names.nextLabel.nextLabel
    let elseExit := b.names.label
    let join := b.names.nextLabel.label
    let names := b.names.nextLabel.nextLabel
    { steps := c.steps.map (Step.bind (toLabels thenLabel elseLabel)) ++
        .line (.label thenLabel) :: a.steps ++
        [.jump (.goto thenExit), .line (.label thenExit), .jump (.goto join),
          .line (.label elseLabel)] ++
        b.steps ++
        [.jump (.goto elseExit), .line (.label elseExit), .jump (.goto join), .line (.label join),
         .line (.phi names.register type (.register a.place) thenExit (.register b.place)
          elseExit)]
      globals := c.globals ++ a.globals ++ b.globals
      names := names.nextRegister
      place := names.register }

def Test.code (frame : Frame) : Test → NameSupply → Code Bool
  | .constant value, s => { steps := [.jump (.via value)], names := s }
  | .read place, s => (place.code frame s).nonzero
  | .call name arguments, s =>
    let a := arguments.code frame s
    TermCode.nonzero
      { steps := a.steps ++ [.line (.call (some (a.names.register, .i32)) name a.operands)]
        globals := a.globals
        names := a.names.nextRegister
        place := a.names.register }
  | .not operand, s =>
    let a := operand.code frame s
    { a with steps := a.steps.map (Step.bind fun value => .via !value) }
  | .and left right, s =>
    let a := left.code frame s
    let here := a.names.label
    let b := right.code frame a.names.nextLabel
    { steps := a.steps.map (Step.bind (Exit.connect true here)) ++
        .line (.label here) :: b.steps
      globals := a.globals ++ b.globals
      names := b.names }
  | .or left right, s =>
    let a := left.code frame s
    let here := a.names.label
    let b := right.code frame a.names.nextLabel
    { steps := a.steps.map (Step.bind (Exit.connect false here)) ++
        .line (.label here) :: b.steps
      globals := a.globals ++ b.globals
      names := b.names }
  | .compare predicate left right, s =>
    let a := left.code frame s
    let b := right.code frame a.names
    { steps := (a.steps ++ b.steps).map Step.lift ++
        [.line (.compare b.names.register predicate (.register a.place) (.register b.place)),
         branchOn b.names.register]
      globals := a.globals ++ b.globals
      names := b.names.nextRegister }
  | .same operand, s => operand.code frame s
  | .choice condition thenTest elseTest, s =>
    let c := condition.code frame s
    let thenLabel := c.names.label
    let a := thenTest.code frame c.names.nextLabel
    let elseLabel := a.names.label
    let b := elseTest.code frame a.names.nextLabel
    { steps := c.steps.map (Step.bind (toLabels thenLabel elseLabel)) ++
        .line (.label thenLabel) :: a.steps ++ .line (.label elseLabel) :: b.steps
      globals := c.globals ++ a.globals ++ b.globals
      names := b.names }

def Arguments.code (frame : Frame) : Arguments → NameSupply → ArgumentsCode
  | .nil, s => { steps := [], names := s, operands := [] }
  | .cons type value rest, s =>
    let a := value.code frame s
    let b := rest.code frame a.names
    { steps := a.steps ++ b.steps
      globals := a.globals ++ b.globals
      names := b.names
      operands := (type, .register a.place) :: b.operands }

end

/-- A parameter, or a register that has been given out when those from `n` on are free. -/
def Register.InUse (n : Nat) : Register → Prop
  | .temp index => index < n
  | .argument _ => True
  | .frame | .named _ => False

theorem Place.place_inUse (frame : Frame) (place : Place) (s : NameSupply) :
    (place.code frame s).place.InUse (place.code frame s).names.registers := by
  cases place with
  | «variable» pointer => exact Nat.lt_succ_self _
  | parameter index =>
    unfold Place.code
    dsimp only
    split
    · exact Nat.lt_succ_self _
    · trivial

theorem place_computeCode_inUse (operator : Arithmetic) (type : Ty) (left right : Register)
    (s : NameSupply) :
    (computeCode operator type left right s).place.InUse
      (computeCode operator type left right s).names.registers := by
  unfold computeCode
  dsimp only
  split <;> exact Nat.lt_succ_self _

/-- The value of a term is not in a register that is still free. -/
theorem Term.place_inUse (frame : Frame) (t : Term) (s : NameSupply) :
    (t.code frame s).place.InUse (t.code frame s).names.registers := by
  cases t with
  | number | text | truth | choice | call | cut => exact Nat.lt_succ_self _
  | read place => exact place.place_inUse frame s
  | arithmetic operator type left right =>
    unfold Term.code
    dsimp only
    unfold arithmeticCode
    split <;> exact place_computeCode_inUse operator type _ _ _
  | same operand => exact operand.place_inUse frame s

/-! ## Actions -/

/-- Ends an action with a jump to what comes after it. -/
def fallThrough : Step Leave := .jump (.via .next)

/-- Connects the exits of a condition: to a label, and to what comes after the statement. -/
def orNext (onTrue : Label) : Bool → Exit Leave
  | true => .goto onTrue
  | false => .via .next

/-- Connects the exits of the body of a loop. -/
def backTo (check : Label) : Leave → Exit Leave
  | .next | .continue => .goto check
  | .break => .via .next

mutual

def Action.code (frame : Frame) : Action → NameSupply → Code Leave
  | .declare offset pointer none, s =>
    { steps :=
        [.line (.slotAddress (.temp pointer) frame.size offset),
         .line (.store (.number 0) (.temp pointer)), fallThrough]
      names := s }
  | .declare offset pointer (some value), s =>
    let a := value.code frame s
    { steps := .line (.slotAddress (.temp pointer) frame.size offset) :: a.steps.map Step.lift ++
        [.line (.store (.register a.place) (.temp pointer)), fallThrough]
      globals := a.globals
      names := a.names }
  | .assign place value, s =>
    let a := value.code frame s
    { steps := a.steps.map Step.lift ++
        [.line (.store (.register a.place) (place.pointer frame)), fallThrough]
      globals := a.globals
      names := a.names }
  | .drop value, s =>
    let a := value.code frame s
    { steps := a.steps.map Step.lift ++ [fallThrough], globals := a.globals, names := a.names }
  | .run name arguments, s =>
    let a := arguments.code frame s
    { steps := a.steps.map Step.lift ++ [.line (.call none name a.operands), fallThrough]
      globals := a.globals
      names := a.names }
  | .check condition, s =>
    let c := condition.code frame s
    let here := c.names.label
    { steps := c.steps.map (Step.bind fun _ => .goto here) ++ [.line (.label here), fallThrough]
      globals := c.globals
      names := c.names.nextLabel }
  | .when condition body, s =>
    let c := condition.code frame s
    let thenLabel := c.names.label
    let a := body.code frame c.names.nextLabel
    { steps := c.steps.map (Step.bind (orNext thenLabel)) ++ .line (.label thenLabel) :: a.steps
      globals := c.globals ++ a.globals
      names := a.names }
  | .either condition thenBranch elseBranch, s =>
    let c := condition.code frame s
    let thenLabel := c.names.label
    let a := thenBranch.code frame c.names.nextLabel
    let elseLabel := a.names.label
    let b := elseBranch.code frame a.names.nextLabel
    { steps := c.steps.map (Step.bind (toLabels thenLabel elseLabel)) ++
        .line (.label thenLabel) :: a.steps ++ .line (.label elseLabel) :: b.steps
      globals := c.globals ++ a.globals ++ b.globals
      names := b.names }
  | .loop condition body, s =>
    let check := s.label
    let c := condition.code frame s.nextLabel
    let bodyLabel := c.names.label
    let a := body.code frame c.names.nextLabel
    { steps := .jump (.goto check) :: .line (.label check) ::
        c.steps.map (Step.bind (orNext bodyLabel)) ++
        .line (.label bodyLabel) :: a.steps.map (Step.bind (backTo check))
      globals := c.globals ++ a.globals
      names := a.names }
  | .break, s => { steps := [.jump (.via .break)], names := s }
  | .continue, s => { steps := [.jump (.via .continue)], names := s }
  | .return none, s => { steps := [.line (.ret none)], names := s }
  | .return (some value), s =>
    let a := value.code frame s
    { steps := a.steps.map Step.lift ++
        [.line (.ret (some (frame.returnType.ir, .register a.place)))]
      globals := a.globals
      names := a.names }
  | .block .nil, s => { steps := [fallThrough], names := s }
  | .block (.cons first rest), s => Actions.code frame (.cons first rest) s

/-- The code of the statements of a block, with a label between each two. -/
def Actions.code (frame : Frame) : Actions → NameSupply → Code Leave
  | .nil, s => { steps := [], names := s }
  | .cons first .nil, s => first.code frame s
  | .cons first (.cons second rest), s =>
    let a := first.code frame s
    let here := a.names.label
    let b := Actions.code frame (.cons second rest) a.names.nextLabel
    { steps := a.steps.map (Step.bind (Exit.connect .next here)) ++ .line (.label here) :: b.steps
      globals := a.globals ++ b.globals
      names := b.names }

end

/-! ## Functions -/

namespace Routine

/-- What the body of a function reads of it. -/
def frame (f : Routine) : Frame :=
  { size := f.frameSize, returnType := f.returnType, slots := f.slots.map (Option.map .temp) }

theorem getElem?_slots (f : Routine) (i : Nat) :
    f.frame.slots[i]? = (f.slots[i]?).map (Option.map .temp) :=
  List.getElem?_map

theorem exists_slot {f : Routine} {i : Nat} {slot : Register}
    (h : f.frame.slots[i]? = some (some slot)) :
    ∃ n, slot = .temp n ∧ f.slots[i]? = some (some n) := by
  rw [f.getElem?_slots] at h
  obtain ⟨own, located, eq⟩ := Option.map_eq_some_iff.mp h
  obtain ⟨n, rfl, rfl⟩ := Option.map_eq_some_iff.mp eq
  exact ⟨n, rfl, located⟩

/-- The first line of a function. -/
def head (f : Routine) : Instr := .define f.returnType.ir f.name (f.parameters.map Ty.ir)

/-- Stores the parameters that have a place of their own. -/
def spillLines : Nat → List (Option Nat) → List Instr
  | _, [] => []
  | index, none :: slots => spillLines (index + 1) slots
  | index, some slot :: slots =>
    .allocaSlot (.temp slot) :: .store (.register (.argument index)) (.temp slot) ::
      spillLines (index + 1) slots

/-- Reserves the frame, if there is something to keep in it. -/
def frameLines (f : Routine) : List Instr :=
  if 0 < f.frameSize then [.allocaFrame f.frameSize] else []

/-- What stands behind the body: the program ends with `main`, other functions return. -/
def endLines (f : Routine) : List Instr :=
  (if f.name = "main" then [.call none "exit" [(.i32, .number 0)]] else []) ++
    [.ret (if f.returnType = .void then none else some (f.returnType.ir, .number 0))]

/-- The lines between the head and the end of a function. -/
def code (f : Routine) (s : NameSupply) : Code Empty :=
  let body := Action.code f.frame (.block f.body) s
  let done := body.names.label
  { steps := (f.frameLines ++ spillLines 0 f.slots).map Step.line ++
      body.steps.map (Step.bind fun _ => .goto done) ++
      (.label done :: f.endLines).map Step.line
    globals := body.globals
    names := body.names.nextLabel }

end Routine

end Backpatch
