import Backpatch.Code.Statement
import Backpatch.Tree.Forest

/-!
# Code of functions

A function reserves its frame and a place for each parameter that is assigned to, and then runs its
body. Control that reaches the end of the body returns, with zero if a value is due; at the end of
`main` the program stops.
-/

namespace Backpatch.Emission

/-- Stores the parameters that have a place of their own. -/
def spillParameters (index : Nat) : List (Option Register) → EmitM Unit
  | [] => pure ()
  | none :: slots => spillParameters (index + 1) slots
  | some slot :: slots => do
    write (.allocaSlot slot)
    write (.store (.register (.argument index)) slot)
    spillParameters (index + 1) slots

def irTypes : List Ty → EmitM (List IrType)
  | [] => return []
  | type :: types => do
    let ir ← irType type
    let irs ← irTypes types
    return ir :: irs

/-- What is returned where the body does not return. -/
def defaultResult (type : Ty) (ir : IrType) : Option (IrType × Operand) :=
  if type = .void then none else some (ir, .number 0)

/-- The code of a function. -/
def emitFunction : Node → EmitM Unit
  | .mk _ _ (.function info) [body] => do
    let parameters ← irTypes info.parameters
    let result ← irType info.returnType
    write (.define result info.name parameters)
    increaseIndent
    if 0 < info.frameSize then write (.allocaFrame info.frameSize)
    spillParameters 0 info.slots
    let frame : Frame :=
      { size := info.frameSize, returnType := info.returnType, slots := info.slots }
    emitStatement (some frame) body
    let leaving ← takeLeaving body.id
    if leaving.breaks ≠ [] ∨ leaving.continues ≠ [] then fault (.escapedExits info.name)
    let done ← label
    backpatch leaving.next done
    if info.name = "main" then write (.call none "exit" [(.i32, .number 0)])
    write (.ret (defaultResult info.returnType result))
    decreaseIndent
    write .close
    write .blank
  | .mk _ _ (.function info) bodies => fault (.bodyCount info.name bodies.length)
  | .mk id _ _ _ => fault (.notFunction id)

def emitFunctions : List Node → EmitM Unit
  | [] => pure ()
  | n :: ns => do
    emitFunction n
    emitFunctions ns

/-- The code of every function of a program, in the order of the source. -/
def emitProgram (root : Option Node) : EmitM Unit :=
  match root with
  | some root => emitFunctions root.children
  | none => fault .noRoot

end Backpatch.Emission
