import Backpatch.Location
import Backpatch.Ty

/-!
# Diagnostics

What is wrong with a program (`SemanticError`), and why a compilation ends without output
(`CompilerError`): the program is wrong, the input cannot be read as a program, or a file cannot be
read or written. Each has a one-line message.
-/

namespace Backpatch

inductive SemanticError
  | undefinedVariable (name : String) (location : Location)
  | undefinedFunction (name : String) (location : Location)
  | redefinition (name : String) (location : Location)
  | typeMismatch (location : Location)
  | prototypeMismatch (name : String) (expected : List Ty) (location : Location)
  | unexpectedBreak (location : Location)
  | unexpectedContinue (location : Location)
  | missingEntryPoint
  | literalOutOfRange (type : Ty) (text : String) (location : Location)
  deriving DecidableEq, Repr

namespace SemanticError

/-- The place that the message names. -/
def location? : SemanticError → Option Location
  | undefinedVariable _ l | undefinedFunction _ l | redefinition _ l | typeMismatch l
  | prototypeMismatch _ _ l | unexpectedBreak l | unexpectedContinue l
  | literalOutOfRange _ _ l => some l
  | missingEntryPoint => none

def message : SemanticError → String
  | undefinedVariable name l => s!"line {l.display}: variable {name} is not defined"
  | undefinedFunction name l => s!"line {l.display}: function {name} is not defined"
  | redefinition name l => s!"line {l.display}: identifier {name} is already defined"
  | typeMismatch l => s!"line {l.display}: type mismatch"
  | prototypeMismatch name expected l =>
    let types := ",".intercalate (expected.map Ty.upperName)
    s!"line {l.display}: prototype mismatch, function {name} expects arguments ({types})"
  | unexpectedBreak l => s!"line {l.display}: unexpected break statement"
  | unexpectedContinue l => s!"line {l.display}: unexpected continue statement"
  | missingEntryPoint => "Program has no 'void main()' function"
  | literalOutOfRange type text l =>
    s!"line {l.display}: {type.lowerName} value {text} out of range"

end SemanticError

inductive CompilerError
  | semantic (location : Option Location) (text : String)
  | input (reason : String)
  | io (reason : String)
  deriving DecidableEq, Repr

namespace CompilerError

def ofSemantic (e : SemanticError) : CompilerError := .semantic e.location? e.message

def message : CompilerError → String
  | semantic _ text => text
  | input reason => "Invalid input: " ++ reason
  | io reason => "IO error: " ++ reason

/-- The line that the message names. -/
def line? : CompilerError → Option UInt32
  | semantic location _ => location.map Location.line
  | _ => none

end CompilerError

end Backpatch
