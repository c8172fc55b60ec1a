import Backpatch.Code.Emission
import Backpatch.Code.Prelude
import Backpatch.Text.Constant

/-!
# Code of expressions

The operands of an expression are emitted before the instruction that uses them. The value of an
expression is left in a register (`Exits.place`), except for a truth value: its code ends in
branches, and where it is true or false is left to whoever uses it (`Exits.onTrue`,
`Exits.onFalse`). So `and`, `or` and `not` need no instructions at all. Where a truth value is
wanted as a number, `materialize` makes it one.

Bytes are kept in 32 bits like ints. The result of arithmetic on bytes, and an int that is cast to a
byte, is cut to its last eight bits. A division is guarded against a divisor of zero.
-/

namespace Backpatch.Emission

/-- Makes a truth value that has just been emitted a number, 0 or 1, in a register. -/
def materialize (id : NodeId) : EmitM Register := do
  let (onTrue, onFalse) ← takeBranches id
  let trueLabel ← label
  backpatch onTrue trueLabel
  let fromTrue ← jump
  let falseLabel ← label
  backpatch onFalse falseLabel
  let fromFalse ← jump
  let join ← label
  backpatch [fromTrue, fromFalse] join
  let value ← freshRegister
  write (.phi value .i32 (.number 1) trueLabel (.number 0) falseLabel)
  return value

/-- Makes a truth value a number; the node has to be an expression. -/
def materializeNode (n : Node) : EmitM Register :=
  match n.type? with
  | some _ => materialize n.id
  | none => fault (.notExpression n.id)

/-- The register with the value of an expression that has just been emitted. -/
def valueOf (n : Node) : EmitM Register := do
  if n.type? = some .bool then materialize n.id
  else
    match (← exitsOf n.id).place with
    | some register => return register
    | none => fault (.noValue n.id)

def typeOf (n : Node) : EmitM Ty :=
  match n.type? with
  | some type => pure type
  | none => fault (.notExpression n.id)

/-- Branches on a condition, which makes it the truth value of a node. -/
def branchOn (id : NodeId) (condition : Register) : EmitM Unit := do
  let (onTrue, onFalse) ← branch condition
  setBranches id [onTrue] [onFalse]

/-- Leaves a number as the result of a node of this type: a truth value is tested against zero. -/
def setResult (id : NodeId) (type : Ty) (value : Register) : EmitM Unit := do
  if type = .bool then
    let condition ← freshRegister
    write (.compare condition .ne (.register value) (.number 0))
    branchOn id condition
  else setPlace id value

/-- Puts a number into a register. -/
def loadNumber (n : Int) : EmitM Register := do
  let register ← freshRegister
  write (.compute register .add (.number 0) (.number n))
  return register

/-- Cuts a number to its last eight bits. -/
def truncate (value : Register) : EmitM Register := do
  let masked ← freshRegister
  write (.compute masked .and (.register value) (.number 255))
  return masked

def emitLiteral (id : NodeId) : LiteralValue → EmitM Unit
  | .int value => do setPlace id (← loadNumber value.toInt)
  | .byte value => do setPlace id (← loadNumber value.toNat)
  | .bool value => do
    let record ← jump
    if value then setBranches id [record] [] else setBranches id [] [record]
  | .string text => do
    let length := Text.constantLength text
    let name ← constant length (Text.constantBody text)
    let register ← freshRegister
    write (.stringAddress register length name)
    setPlace id register

/-- The place of a parameter's own, if it has one. -/
def parameterSlot (frame : Option Frame) (index : Nat) : EmitM (Option Register) :=
  match frame with
  | none => fault .noFrame
  | some frame =>
    match frame.slots[index]? with
    | some slot => pure slot
    | none => fault .outOfRange

def loadFrom (pointer : Register) : EmitM Register := do
  let value ← freshRegister
  write (.load value pointer)
  return value

def readBinding (frame : Option Frame) : Binding → EmitM Register
  | .local pointer => loadFrom pointer
  | .parameter index => do
    match ← parameterSlot frame index with
    | some slot => loadFrom slot
    | none => return .argument index

/-- Leaves the division to the handler when the divisor is zero. -/
def guardDivision (divisor : Register) : EmitM Unit := do
  let isZero ← freshRegister
  write (.compare isZero .eq (.register divisor) (.number 0))
  let (onZero, onNonzero) ← branch isZero
  let error ← label
  backpatch [onZero] error
  write (.call none zeroDivisionHandler [])
  let resume ← jump
  let divide ← label
  backpatch [onNonzero, resume] divide

/-- Computes an operation on two values; on bytes, the result is cut to a byte. -/
def emitArithmetic (operator : Arithmetic) (type : Ty) (left right : Register) :
    EmitM Register := do
  if operator = .div then guardDivision right
  let raw ← freshRegister
  write (.compute raw (operator.opcode type.isSigned) (.register left) (.register right))
  if type = .byte then truncate raw else return raw

/-- Ends an arm of a conditional in a block of its own, which the join can name. -/
def closeArm : EmitM (Label × PatchRecord) := do
  let leave ← jump
  let exit ← label
  backpatch [leave] exit
  let join ← jump
  return (exit, join)

/-- Calls a function and leaves its result, if it has one. -/
def emitCall (id : NodeId) (type : Ty) (name : String) (arguments : List (IrType × Operand)) :
    EmitM Unit := do
  if type = .void then write (.call none name arguments)
  else
    let result ← freshRegister
    let ir ← irType type
    write (.call (some (result, ir)) name arguments)
    setResult id type result

mutual

/-- The code of an expression. -/
def emitExpression (frame : Option Frame) : Node → EmitM Unit
  | .mk id _ (.expression _ (.literal value)) _ => emitLiteral id value
  | .mk id _ (.expression type (.identifier _ binding)) _ => do
    let value ← readBinding frame binding
    setResult id type value
  | .mk id _ (.expression type (.call name parameters)) arguments => do
    let arguments ← emitArguments frame arguments parameters
    emitCall id type name arguments
  | .mk id _ (.expression _ .not) (operand :: _) => do
    emitExpression frame operand
    let (onTrue, onFalse) ← takeBranches operand.id
    setBranches id onFalse onTrue
  | .mk id _ (.expression _ .and) (left :: right :: _) => do
    emitExpression frame left
    let (leftTrue, leftFalse) ← takeBranches left.id
    let here ← label
    backpatch leftTrue here
    emitExpression frame right
    let (rightTrue, rightFalse) ← takeBranches right.id
    setBranches id rightTrue (leftFalse ++ rightFalse)
  | .mk id _ (.expression _ .or) (left :: right :: _) => do
    emitExpression frame left
    let (leftTrue, leftFalse) ← takeBranches left.id
    let here ← label
    backpatch leftFalse here
    emitExpression frame right
    let (rightTrue, rightFalse) ← takeBranches right.id
    setBranches id (leftTrue ++ rightTrue) rightFalse
  | .mk id _ (.expression type (.arithmetic operator)) (left :: rest) => do
    emitExpression frame left
    let leftValue ← valueOf left
    match rest with
    | [] => fault .outOfRange
    | right :: _ =>
      emitExpression frame right
      let rightValue ← valueOf right
      let value ← emitArithmetic operator type leftValue rightValue
      setPlace id value
  | .mk id _ (.expression _ (.comparison operator)) (left :: rest) => do
    let leftType ← typeOf left
    match rest with
    | [] => fault .outOfRange
    | right :: _ =>
      let rightType ← typeOf right
      let signed := (Ty.castUp leftType rightType).isSigned
      emitExpression frame left
      let leftValue ← valueOf left
      emitExpression frame right
      let rightValue ← valueOf right
      let condition ← freshRegister
      write (.compare condition (operator.predicate signed) (.register leftValue)
        (.register rightValue))
      branchOn id condition
  | .mk id _ (.expression _ (.cast target)) (operand :: _) => do
    let source ← typeOf operand
    emitExpression frame operand
    if target = .bool then
      let (onTrue, onFalse) ← takeBranches operand.id
      setBranches id onTrue onFalse
    else
      let value ← valueOf operand
      if source = .int ∧ target = .byte then setPlace id (← truncate value)
      else setPlace id value
  | .mk id _ (.expression type .conditional) (condition :: thenValue :: elseValue :: _) => do
    emitExpression frame condition
    let (onTrue, onFalse) ← takeBranches condition.id
    let thenLabel ← label
    backpatch onTrue thenLabel
    emitExpression frame thenValue
    if type = .bool then
      let (thenTrue, thenFalse) ← takeBranches thenValue.id
      let elseLabel ← label
      backpatch onFalse elseLabel
      emitExpression frame elseValue
      let (elseTrue, elseFalse) ← takeBranches elseValue.id
      setBranches id (thenTrue ++ elseTrue) (thenFalse ++ elseFalse)
    else
      let thenResult ← valueOf thenValue
      let (thenExit, thenJoin) ← closeArm
      let elseLabel ← label
      backpatch onFalse elseLabel
      emitExpression frame elseValue
      let elseResult ← valueOf elseValue
      let (elseExit, elseJoin) ← closeArm
      let join ← label
      backpatch [thenJoin, elseJoin] join
      let value ← freshRegister
      let ir ← irType type
      write (.phi value ir (.register thenResult) thenExit (.register elseResult) elseExit)
      setPlace id value
  | .mk _ _ (.expression _ _) _ => fault .outOfRange
  | .mk id _ _ _ => fault (.notExpression id)

/-- The values of the arguments of a call, each with the type of its parameter. -/
def emitArguments (frame : Option Frame) :
    List Node → List Ty → EmitM (List (IrType × Operand))
  | argument :: arguments, type :: types => do
    emitExpression frame argument
    let value ← valueOf argument
    let ir ← irType type
    let rest ← emitArguments frame arguments types
    return (ir, .register value) :: rest
  | _, _ => return []

end

/-- The code of an expression, and the register that holds its value. -/
def emitValue (frame : Option Frame) (n : Node) : EmitM Register := do
  emitExpression frame n
  valueOf n

end Backpatch.Emission
