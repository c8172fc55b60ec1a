import Backpatch.Code.Expression

/-!
# Code of statements

A statement starts at the head of a block of code and ends with a branch or a return, so each new
label stands right behind one of these. The branch to what comes after the statement is left open
(`Exits.next`), and so are the branches of `break` and `continue` to the loop around it, which
fills them: the first go where the loop goes when it ends, the second back to its condition.
-/

namespace Backpatch.Emission

/-- Ends a statement with a jump to what comes after it. -/
def fallThrough (id : NodeId) : EmitM Unit := do
  let record ← jump
  setNext id [record]

def frameOf (frame : Option Frame) : EmitM Frame :=
  match frame with
  | some frame => pure frame
  | none => fault .noFrame

/-- The register with the address that an assignment stores to. -/
def pointerOf (frame : Option Frame) : Binding → EmitM Register
  | .local pointer => pure pointer
  | .parameter index => do
    match ← parameterSlot frame index with
    | some slot => return slot
    | none => fault (.parameterWithoutSlot index)

mutual

/-- The code of a statement. -/
def emitStatement (frame : Option Frame) : Node → EmitM Unit
  | .mk id _ (.statement (.declaration _ _ offset pointer)) children => do
    let size := (← frameOf frame).size
    write (.slotAddress pointer size offset)
    let value ←
      match children with
      | [] => pure (.number 0)
      | initializer :: _ => do pure (.register (← emitValue frame initializer))
    write (.store value pointer)
    fallThrough id
  | .mk id _ (.statement (.assignment binding)) (value :: _) => do
    let register ← emitValue frame value
    let pointer ← pointerOf frame binding
    write (.store (.register register) pointer)
    fallThrough id
  | .mk id _ (.statement .expression) (value :: _) => do
    emitExpression frame value
    if value.type? = some .bool then
      let (onTrue, onFalse) ← takeBranches value.id
      let here ← label
      backpatch onTrue here
      backpatch onFalse here
    fallThrough id
  | .mk id _ (.statement .conditional) (condition :: branches) => do
    emitExpression frame condition
    let (onTrue, onFalse) ← takeBranches condition.id
    let thenLabel ← label
    backpatch onTrue thenLabel
    match branches with
    | [] => fault .outOfRange
    | thenBranch :: rest =>
      emitStatement frame thenBranch
      let thenLeaving ← takeLeaving thenBranch.id
      match rest with
      | [] => setLeaving id { thenLeaving with next := onFalse ++ thenLeaving.next }
      | elseBranch :: _ =>
        let elseLabel ← label
        backpatch onFalse elseLabel
        emitStatement frame elseBranch
        let elseLeaving ← takeLeaving elseBranch.id
        setLeaving id
          { next := thenLeaving.next ++ elseLeaving.next
            breaks := thenLeaving.breaks ++ elseLeaving.breaks
            continues := thenLeaving.continues ++ elseLeaving.continues }
  | .mk id _ (.statement .loop) (condition :: body :: _) => do
    let enter ← jump
    let check ← label
    backpatch [enter] check
    emitExpression frame condition
    let (onTrue, onFalse) ← takeBranches condition.id
    let bodyLabel ← label
    backpatch onTrue bodyLabel
    emitStatement frame body
    let leaving ← takeLeaving body.id
    backpatch leaving.next check
    backpatch leaving.continues check
    setNext id (onFalse ++ leaving.breaks)
  | .mk id _ (.statement .break) _ => do
    let record ← jump
    modifyExits id fun e => { e with breaks := [record] }
  | .mk id _ (.statement .continue) _ => do
    let record ← jump
    modifyExits id fun e => { e with continues := [record] }
  | .mk _ _ (.statement .return) [] => write (.ret none)
  | .mk _ _ (.statement .return) (value :: _) => do
    let register ← emitValue frame value
    let ir ← irType (← frameOf frame).returnType
    write (.ret (some (ir, .register register)))
  | .mk id _ (.statement .block) [] => do
    let record ← jump
    setLeaving id { next := [record] }
  | .mk id _ (.statement .block) (first :: rest) => do
    emitStatement frame first
    let leaving ← takeLeaving first.id
    let leaving ← emitRest frame leaving rest
    setLeaving id leaving
  | .mk _ _ (.statement _) _ => fault .outOfRange
  | .mk id _ _ _ => fault (.notStatement id)

/-- The code of the statements that follow others in a block. Each starts with a label, where the
statement before it goes on. -/
def emitRest (frame : Option Frame) (before : Leaving) : List Node → EmitM Leaving
  | [] => return before
  | statement :: rest => do
    let here ← label
    backpatch before.next here
    emitStatement frame statement
    let leaving ← takeLeaving statement.id
    emitRest frame
      { next := leaving.next
        breaks := before.breaks ++ leaving.breaks
        continues := before.continues ++ leaving.continues } rest

end

end Backpatch.Emission
