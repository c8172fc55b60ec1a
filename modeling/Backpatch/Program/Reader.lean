import Backpatch.Json.Reader
import Backpatch.Json.Shape
import Backpatch.Program.Basic

/-!
# Reading programs

The JSON form of programs. A located thing is a record of its kind and its location, a kind with a
payload is an object that maps its name to the payload, and a payload of several parts is a record
again. Every reader takes the number of brackets that may still be opened (`Json.maxDepth` at the
outside), and each bracket that it opens costs one, which is also why the readers end.
-/

namespace Backpatch

open Json (Field record? variant? orDefault optional text? bool? below? list?)

def Location.shape : List Field := [{ name := "line" }, { name := "column", hasDefault := true }]

def Location.ofJson? : Nat → Json → Option Location
  | 0, _ => none
  | _ + 1, json =>
    match json.record? Location.shape with
    | some [some line, column] => do
      let line ← below? 4294967296 line
      let column ← orDefault 0 (below? 4294967296) column
      return { line := UInt32.ofNat line, column := UInt32.ofNat column }
    | _ => none

def Arithmetic.ofName? : String → Option Arithmetic
  | "Add" => some .add
  | "Sub" => some .sub
  | "Mul" => some .mul
  | "Div" => some .div
  | _ => none

def Comparison.ofName? : String → Option Comparison
  | "Equal" => some .equal
  | "NotEqual" => some .notEqual
  | "Less" => some .less
  | "Greater" => some .greater
  | "LessEqual" => some .lessEqual
  | "GreaterEqual" => some .greaterEqual
  | _ => none

def Literal.ofJson? : Nat → Json → Option Literal
  | _ + 1, .object [(some "Int", payload)] => payload.text?.map .int
  | _ + 1, .object [(some "Byte", payload)] => payload.text?.map .byte
  | _ + 1, .object [(some "Bool", payload)] => payload.bool?.map .bool
  | _ + 1, .object [(some "String", payload)] => payload.text?.map .string
  | _, _ => none

/-- A thing with a location. -/
def Location.shapeOfKind : List Field :=
  [{ name := "kind" }, { name := "location", hasDefault := true }]

/-- A location field, `nowhere` if it is missing. -/
def Location.field? (room : Nat) : Option Json → Option Location :=
  orDefault .nowhere (Location.ofJson? room)

def Expr.pairShape : List Field := [{ name := "left" }, { name := "right" }]

def Expr.operatorShape : List Field := { name := "op" } :: Expr.pairShape

mutual

def Expr.ofJson? : Nat → Json → Option Expr
  | 0, _ => none
  | room + 1, json =>
    match json.record? Location.shapeOfKind with
    | some [some kind, location] => do
      let location ← Location.field? room location
      Expr.ofKind? room location kind
    | _ => none

def Expr.ofKind? : Nat → Location → Json → Option Expr
  | room + 1, location, .object [(some "Literal", payload)] =>
    (Literal.ofJson? room payload).map (.literal location)
  | _ + 1, location, .object [(some "Identifier", payload)] =>
    payload.text?.map (.identifier location)
  | room + 3, location, .object [(some "Call", payload)] =>
    match payload.record? [{ name := "name" }, { name := "arguments" }] with
    | some [some name, some arguments] => do
      let name ← name.text?
      let arguments ← arguments.list? (Expr.ofJson? room)
      return .call location name arguments
    | _ => none
  | room + 1, location, .object [(some "Not", payload)] =>
    (Expr.ofJson? room payload).map (.not location)
  | room + 2, location, .object [(some "And", payload)] =>
    match payload.record? Expr.pairShape with
    | some [some left, some right] => do
      return .and location (← Expr.ofJson? room left) (← Expr.ofJson? room right)
    | _ => none
  | room + 2, location, .object [(some "Or", payload)] =>
    match payload.record? Expr.pairShape with
    | some [some left, some right] => do
      return .or location (← Expr.ofJson? room left) (← Expr.ofJson? room right)
    | _ => none
  | room + 2, location, .object [(some "Binary", payload)] =>
    match payload.record? Expr.operatorShape with
    | some [some operator, some left, some right] => do
      let operator ← (operator.variant? room).bind Arithmetic.ofName?
      return .arithmetic location operator (← Expr.ofJson? room left) (← Expr.ofJson? room right)
    | _ => none
  | room + 2, location, .object [(some "Relational", payload)] =>
    match payload.record? Expr.operatorShape with
    | some [some operator, some left, some right] => do
      let operator ← (operator.variant? room).bind Comparison.ofName?
      return .comparison location operator (← Expr.ofJson? room left) (← Expr.ofJson? room right)
    | _ => none
  | room + 2, location, .object [(some "Cast", payload)] =>
    match payload.record? [{ name := "target" }, { name := "operand" }] with
    | some [some target, some operand] => do
      return .cast location (← target.text?) (← Expr.ofJson? room operand)
    | _ => none
  | room + 2, location, .object [(some "Conditional", payload)] =>
    match payload.record?
        [{ name := "condition" }, { name := "then_value" }, { name := "else_value" }] with
    | some [some condition, some thenValue, some elseValue] => do
      return .conditional location (← Expr.ofJson? room condition) (← Expr.ofJson? room thenValue)
        (← Expr.ofJson? room elseValue)
    | _ => none
  | _, _, _ => none

end

mutual

def Stmt.ofJson? : Nat → Json → Option Stmt
  | 0, _ => none
  | room + 1, json =>
    match json.record? Location.shapeOfKind with
    | some [some kind, location] => do
      let location ← Location.field? room location
      Stmt.ofKind? room location kind
    | _ => none

def Stmt.ofKind? : Nat → Location → Json → Option Stmt
  | room + 2, location, .object [(some "Declaration", payload)] =>
    match payload.record? [{ name := "ty" }, { name := "name" }, { name := "initializer" }] with
    | some [some type, some name, initializer] => do
      return .declaration location (← type.text?) (← name.text?)
        (← optional (Expr.ofJson? room) initializer)
    | _ => none
  | room + 2, location, .object [(some "Assignment", payload)] =>
    match payload.record? [{ name := "name" }, { name := "value" }] with
    | some [some name, some value] => do
      return .assignment location (← name.text?) (← Expr.ofJson? room value)
    | _ => none
  | room + 1, location, .object [(some "Expression", payload)] =>
    (Expr.ofJson? room payload).map (.expression location)
  | room + 2, location, .object [(some "If", payload)] =>
    match payload.record?
        [{ name := "condition" }, { name := "then_branch" }, { name := "else_branch" }] with
    | some [some condition, some thenBranch, elseBranch] => do
      return .conditional location (← Expr.ofJson? room condition) (← Stmt.ofJson? room thenBranch)
        (← optional (Stmt.ofJson? room) elseBranch)
    | _ => none
  | room + 2, location, .object [(some "While", payload)] =>
    match payload.record? [{ name := "condition" }, { name := "body" }] with
    | some [some condition, some body] => do
      return .loop location (← Expr.ofJson? room condition) (← Stmt.ofJson? room body)
    | _ => none
  | room + 1, location, .object [(some "Return", payload)] =>
    (optional (Expr.ofJson? room) (some payload)).map (.return location)
  | room + 2, location, .object [(some "Block", payload)] =>
    (payload.list? (Stmt.ofJson? room)).map (.block location)
  | room, location, kind =>
    match kind.variant? room with
    | some "Break" => some (.break location)
    | some "Continue" => some (.continue location)
    | _ => none

end

def Parameter.ofJson? : Nat → Json → Option Parameter
  | 0, _ => none
  | room + 1, json =>
    match json.record?
        [{ name := "ty" }, { name := "name" }, { name := "location", hasDefault := true }] with
    | some [some type, some name, location] => do
      return { type := ← type.text?, name := ← name.text?
               location := ← Location.field? room location }
    | _ => none

def FunctionDef.shape : List Field :=
  [{ name := "name" }, { name := "return_type" }, { name := "parameters", hasDefault := true },
   { name := "body" }, { name := "location", hasDefault := true }]

def FunctionDef.ofJson? : Nat → Json → Option FunctionDef
  | room + 2, json =>
    match json.record? FunctionDef.shape with
    | some [some name, some returnType, parameters, some body, location] => do
      return { name := ← name.text?
               returnType := ← returnType.text?
               parameters := ← orDefault [] (list? (Parameter.ofJson? room)) parameters
               body := ← body.list? (Stmt.ofJson? room)
               location := ← Location.field? (room + 1) location }
    | _ => none
  | _, _ => none

def Program.ofJson? : Nat → Json → Option Program
  | room + 2, json =>
    match json.record? [{ name := "functions" }] with
    | some [some functions] => do
      return { functions := ← functions.list? (FunctionDef.ofJson? room) }
    | _ => none
  | _, _ => none

/-- The location that a text spells. -/
def Location.parse? (text : String) : Option Location :=
  (Json.parse? text).bind (Location.ofJson? Json.maxDepth)

/-- The program that a text spells. -/
def Program.parse? (text : String) : Option Program :=
  (Json.parse? text).bind (Program.ofJson? Json.maxDepth)

end Backpatch
