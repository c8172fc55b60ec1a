/-!
# Types of the source language

Two numeric types, `byte` (unsigned, one byte) and `int` (signed, 32 bits), the truth values, texts,
and `void` for functions that return nothing. A type name that is none of these is `invalid`, and
so is the common type of operands that have none.
-/

namespace Backpatch

inductive Ty
  | byte
  | int
  | bool
  | string
  | void
  | invalid
  deriving DecidableEq, Repr, Inhabited

namespace Ty

/-- The type that a name in the source stands for. -/
def ofName : String → Ty
  | "byte" => byte
  | "int" => int
  | "bool" => bool
  | "string" => string
  | "void" => void
  | _ => invalid

/-- The name of a type in messages that speak of a value. -/
def lowerName : Ty → String
  | byte => "byte"
  | int => "int"
  | bool => "bool"
  | string => "string"
  | void => "void"
  | invalid => "invalid"

/-- The name of a type in messages that list parameter types. -/
def upperName : Ty → String
  | byte => "BYTE"
  | int => "INT"
  | bool => "BOOL"
  | string => "STRING"
  | void => "VOID"
  | invalid => "INVALID"

def isNumeric : Ty → Bool
  | byte | int => true
  | _ => false

/-- Special types cannot be stored in a variable or passed to a parameter of a declared function. -/
def isSpecial : Ty → Bool
  | string | void | invalid => true
  | _ => false

def isSigned : Ty → Bool
  | int => true
  | _ => false

/-- The common type of two operands: their own type if they agree, `int` for two numeric types,
and `invalid` otherwise. -/
def castUp (a b : Ty) : Ty :=
  if a = b then a
  else if a.isNumeric && b.isNumeric then int
  else invalid

/-- A value of type `a` may stand where `b` is wanted: the types agree, or a byte widens. -/
def convertibleTo (a b : Ty) : Bool :=
  a != invalid && (a == b || (a == byte && b == int))

theorem castUp_comm (a b : Ty) : castUp a b = castUp b a := by
  cases a <;> cases b <;> decide

end Ty

end Backpatch
