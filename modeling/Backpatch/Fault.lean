import Backpatch.Code.Patch
import Backpatch.Diagnostic
import Backpatch.Text.Quoted

/-!
# Internal errors

A fault is a use of the compiler's parts that makes no sense, whatever the program: a node with two
parents, a hole that is filled twice, code asked of an expression that has no value. It ends the
work at once.
-/

namespace Backpatch

inductive Fault
  | notExpression (node : Nat)
  | notStatement (node : Nat)
  | notFunction (node : Nat)
  | alreadyAdopted (node : Nat)
  | runtimeFunctionTaken (name : String) (cause : SemanticError)
  | notDigits (token : String)
  | parameterOffset (name : String) (offset : Int)
  | nestedFunction (name : String)
  | noFunctionToEnd
  | statementOutsideFunction
  | parameterOutsideFunction
  | strayPlaceholder (line : String)
  | placeholderCount (index count : Nat) (line : String)
  | slotNotOpen (record : PatchRecord)
  | unresolved (lines : List Nat)
  | noRoot
  | bodyCount (function : String) (count : Nat)
  | escapedExits (function : String)
  | noFrame
  | noValue (node : Nat)
  | noRepresentation
  | parameterWithoutSlot (index : Nat)
  /-- A node without the children that its kind needs, or an index past the end of a list. -/
  | outOfRange
  deriving DecidableEq, Repr

def Fault.message : Fault → String
  | notExpression node => s!"node {node} is not an expression"
  | notStatement node => s!"node {node} is not a statement"
  | notFunction node => s!"node {node} is not a function"
  | alreadyAdopted node => s!"node {node} already has a parent"
  | runtimeFunctionTaken name cause =>
    s!"cannot declare runtime function {name}: " ++ cause.message
  | notDigits token => "numeric literal token " ++ Text.quoted token ++ " is not a digit sequence"
  | parameterOffset name offset => s!"parameter {name} has offset {offset}"
  | nestedFunction name => s!"function {name} begins inside another function"
  | noFunctionToEnd => "end_function without begin_function"
  | statementOutsideFunction => "statement built outside of a function"
  | parameterOutsideFunction => "parameter assignment outside of a function"
  | strayPlaceholder line => s!"placeholder emitted without registering a patch slot: {line}"
  | placeholderCount index count line => s!"line {index} carries {count} placeholders: {line}"
  | slotNotOpen record =>
    "backpatch of line " ++ toString record.line ++ " slot " ++ record.slot.name
      ++ " which is not open"
  | unresolved lines =>
    "unresolved placeholders on lines [" ++ ", ".intercalate (lines.map toString) ++ "]"
  | noRoot => "code generation on a tree without root"
  | bodyCount function count => s!"function {function} has {count} bodies"
  | escapedExits function => s!"loop exits escaped function {function}"
  | noFrame => "frame access outside of a function"
  | noValue node => s!"expression {node} produced no value"
  | noRepresentation => "invalid type has no IR representation"
  | parameterWithoutSlot index => s!"assignment to parameter {index} without a slot"
  | outOfRange => "index out of range"

end Backpatch
