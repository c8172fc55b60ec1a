import Backpatch.Location
import Backpatch.Operator

/-!
# Programs

A program is a list of function definitions. Expressions and statements carry the location that
messages about them name. Type names are kept as they are written, and so are the digits of
numbers: both are judged when the program is checked.
-/

namespace Backpatch

/-- A literal as it is written in the source. -/
inductive Literal
  | int (digits : String)
  | byte (digits : String)
  | bool (value : Bool)
  | string (text : String)
  deriving DecidableEq, Repr, Inhabited

inductive Expr
  | literal (location : Location) (value : Literal)
  | identifier (location : Location) (name : String)
  | call (location : Location) (name : String) (arguments : List Expr)
  | not (location : Location) (operand : Expr)
  | and (location : Location) (left right : Expr)
  | or (location : Location) (left right : Expr)
  | arithmetic (location : Location) (operator : Arithmetic) (left right : Expr)
  | comparison (location : Location) (operator : Comparison) (left right : Expr)
  | cast (location : Location) (target : String) (operand : Expr)
  | conditional (location : Location) (condition thenValue elseValue : Expr)
  deriving Inhabited

inductive Stmt
  | declaration (location : Location) (type name : String) (initializer : Option Expr)
  | assignment (location : Location) (name : String) (value : Expr)
  | expression (location : Location) (value : Expr)
  | conditional (location : Location) (condition : Expr) (thenBranch : Stmt)
      (elseBranch : Option Stmt)
  | loop (location : Location) (condition : Expr) (body : Stmt)
  | break (location : Location)
  | continue (location : Location)
  | return (location : Location) (value : Option Expr)
  | block (location : Location) (body : List Stmt)
  deriving Inhabited

structure Parameter where
  type : String
  name : String
  location : Location := .nowhere
  deriving DecidableEq, Repr, Inhabited

structure FunctionDef where
  name : String
  returnType : String
  parameters : List Parameter := []
  body : List Stmt
  location : Location := .nowhere
  deriving Inhabited

structure Program where
  functions : List FunctionDef
  deriving Inhabited

def Expr.location : Expr → Location
  | .literal l _ | .identifier l _ | .call l _ _ | .not l _ | .and l _ _ | .or l _ _
  | .arithmetic l _ _ _ | .comparison l _ _ _ | .cast l _ _ | .conditional l _ _ _ => l

end Backpatch
