import Backpatch.Json.Printer
import Backpatch.Json.Shape
import Backpatch.Program.Basic

/-!
# Writing programs

The JSON form of a program with every field present: defaults are written out, what is missing is
`null`, and a kind without a payload is its bare name.
-/

namespace Backpatch

open Json (ofFields ofText ofVariant)

def Location.toJson (l : Location) : Json :=
  ofFields [("line", .nat l.line.toNat), ("column", .nat l.column.toNat)]

/-- The text of a location. -/
def Location.render (l : Location) : String := l.toJson.render

def Arithmetic.name : Arithmetic → String
  | .add => "Add"
  | .sub => "Sub"
  | .mul => "Mul"
  | .div => "Div"

def Comparison.name : Comparison → String
  | .equal => "Equal"
  | .notEqual => "NotEqual"
  | .less => "Less"
  | .greater => "Greater"
  | .lessEqual => "LessEqual"
  | .greaterEqual => "GreaterEqual"

def Literal.toJson : Literal → Json
  | .int digits => ofVariant "Int" (ofText digits)
  | .byte digits => ofVariant "Byte" (ofText digits)
  | .bool value => ofVariant "Bool" (.bool value)
  | .string text => ofVariant "String" (ofText text)

/-- A kind and the location of the thing. -/
def Location.withKind (location : Location) (kind : Json) : Json :=
  ofFields [("kind", kind), ("location", location.toJson)]

mutual

def Expr.toJson : Expr → Json
  | .literal l value => l.withKind (ofVariant "Literal" value.toJson)
  | .identifier l name => l.withKind (ofVariant "Identifier" (ofText name))
  | .call l name arguments =>
    l.withKind (ofVariant "Call"
      (ofFields [("name", ofText name), ("arguments", .array (Expr.listToJson arguments))]))
  | .not l operand => l.withKind (ofVariant "Not" operand.toJson)
  | .and l left right =>
    l.withKind (ofVariant "And" (ofFields [("left", left.toJson), ("right", right.toJson)]))
  | .or l left right =>
    l.withKind (ofVariant "Or" (ofFields [("left", left.toJson), ("right", right.toJson)]))
  | .arithmetic l operator left right =>
    l.withKind (ofVariant "Binary" (ofFields
      [("op", ofText operator.name), ("left", left.toJson), ("right", right.toJson)]))
  | .comparison l operator left right =>
    l.withKind (ofVariant "Relational" (ofFields
      [("op", ofText operator.name), ("left", left.toJson), ("right", right.toJson)]))
  | .cast l target operand =>
    l.withKind (ofVariant "Cast"
      (ofFields [("target", ofText target), ("operand", operand.toJson)]))
  | .conditional l condition thenValue elseValue =>
    l.withKind (ofVariant "Conditional" (ofFields
      [("condition", condition.toJson), ("then_value", thenValue.toJson),
       ("else_value", elseValue.toJson)]))

def Expr.listToJson : List Expr → List Json
  | [] => []
  | e :: es => e.toJson :: Expr.listToJson es

end

/-- What may be missing is written as `null`. -/
def Expr.optionToJson : Option Expr → Json
  | none => .null
  | some e => e.toJson

mutual

def Stmt.toJson : Stmt → Json
  | .declaration l type name initializer =>
    l.withKind (ofVariant "Declaration" (ofFields
      [("ty", ofText type), ("name", ofText name),
       ("initializer", Expr.optionToJson initializer)]))
  | .assignment l name value =>
    l.withKind (ofVariant "Assignment"
      (ofFields [("name", ofText name), ("value", value.toJson)]))
  | .expression l value => l.withKind (ofVariant "Expression" value.toJson)
  | .conditional l condition thenBranch elseBranch =>
    l.withKind (ofVariant "If" (ofFields
      [("condition", condition.toJson), ("then_branch", thenBranch.toJson),
       ("else_branch", Stmt.optionToJson elseBranch)]))
  | .loop l condition body =>
    l.withKind (ofVariant "While"
      (ofFields [("condition", condition.toJson), ("body", body.toJson)]))
  | .break l => l.withKind (ofText "Break")
  | .continue l => l.withKind (ofText "Continue")
  | .return l value => l.withKind (ofVariant "Return" (Expr.optionToJson value))
  | .block l body => l.withKind (ofVariant "Block" (.array (Stmt.listToJson body)))

def Stmt.optionToJson : Option Stmt → Json
  | none => .null
  | some s => s.toJson

def Stmt.listToJson : List Stmt → List Json
  | [] => []
  | s :: ss => s.toJson :: Stmt.listToJson ss

end

def Parameter.toJson (p : Parameter) : Json :=
  ofFields [("ty", ofText p.type), ("name", ofText p.name), ("location", p.location.toJson)]

def FunctionDef.toJson (f : FunctionDef) : Json :=
  ofFields [("name", ofText f.name), ("return_type", ofText f.returnType),
    ("parameters", .array (f.parameters.map Parameter.toJson)),
    ("body", .array (Stmt.listToJson f.body)), ("location", f.location.toJson)]

def Program.toJson (p : Program) : Json :=
  ofFields [("functions", .array (p.functions.map FunctionDef.toJson))]

/-- The text of a program. -/
def Program.render (p : Program) : String := p.toJson.render

end Backpatch
