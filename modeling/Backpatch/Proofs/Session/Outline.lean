import Backpatch.Compile

/-!
# Outlines

What the checking adds to a program are types, bindings, places in the frame and registers.
`outline` takes them away from a node, and is what a piece of source stands for.
-/

namespace Backpatch

open List

/-- What a node is, without what the checking finds out about it. -/
inductive Shape
  | literal (value : LiteralValue)
  | identifier (name : String)
  | call (name : String)
  | not
  | and
  | or
  | arithmetic (operator : Arithmetic)
  | comparison (operator : Comparison)
  | cast (target : Ty)
  | choice
  | declaration (type : Ty) (name : String)
  | assignment
  | expression
  | conditional
  | loop
  | break
  | continue
  | return
  | block
  | function (name : String) (returnType : Ty) (parameters : List Ty)
  | root

/-- A tree of shapes and their locations. -/
inductive Outline
  | mk (shape : Shape) (location : Location) (children : List Outline)

def ExprKind.shape : ExprKind → Shape
  | .literal value => .literal value
  | .identifier name _ => .identifier name
  | .call name _ => .call name
  | .not => .not
  | .and => .and
  | .or => .or
  | .arithmetic operator => .arithmetic operator
  | .comparison operator => .comparison operator
  | .cast target => .cast target
  | .conditional => .choice

def StmtKind.shape : StmtKind → Shape
  | .declaration name type _ _ => .declaration type name
  | .assignment _ => .assignment
  | .expression => .expression
  | .conditional => .conditional
  | .loop => .loop
  | .break => .break
  | .continue => .continue
  | .return => .return
  | .block => .block

def NodeKind.shape : NodeKind → Shape
  | .expression _ kind => kind.shape
  | .statement kind => kind.shape
  | .function info => .function info.name info.returnType info.parameters
  | .root => .root

mutual

/-- The tree below a node without what the checking adds. -/
def Node.outline : Node → Outline
  | .mk _ location kind children => .mk kind.shape location (Node.outlineAll children)

def Node.outlineAll : List Node → List Outline
  | [] => []
  | n :: ns => n.outline :: Node.outlineAll ns

end

/-- What a literal stands for. -/
def Literal.value : Literal → LiteralValue
  | .int digits => .int (Int32.ofNat (Decimal.value digits.toList))
  | .byte digits => .byte (UInt8.ofNat (Decimal.value digits.toList))
  | .bool value => .bool value
  | .string text => .string text

mutual

def Expr.outline : Expr → Outline
  | .literal l value => .mk (.literal value.value) l []
  | .identifier l name => .mk (.identifier name) l []
  | .call l name arguments => .mk (.call name) l (Expr.outlineAll arguments)
  | .not l operand => .mk .not l [operand.outline]
  | .and l left right => .mk .and l [left.outline, right.outline]
  | .or l left right => .mk .or l [left.outline, right.outline]
  | .arithmetic l operator left right => .mk (.arithmetic operator) l [left.outline, right.outline]
  | .comparison l operator left right => .mk (.comparison operator) l [left.outline, right.outline]
  | .cast l target operand => .mk (.cast (Ty.ofName target)) l [operand.outline]
  | .conditional l condition thenValue elseValue =>
    .mk .choice l [condition.outline, thenValue.outline, elseValue.outline]

def Expr.outlineAll : List Expr → List Outline
  | [] => []
  | e :: es => e.outline :: Expr.outlineAll es

end

mutual

def Stmt.outline : Stmt → Outline
  | .declaration l type name initializer =>
    .mk (.declaration (Ty.ofName type) name) l (initializer.toList.map Expr.outline)
  | .assignment l _ value => .mk .assignment l [value.outline]
  | .expression l value => .mk .expression l [value.outline]
  | .conditional l condition thenBranch elseBranch =>
    .mk .conditional l (condition.outline :: thenBranch.outline :: Stmt.outlineElse elseBranch)
  | .loop l condition body => .mk .loop l [condition.outline, body.outline]
  | .break l => .mk .break l []
  | .continue l => .mk .continue l []
  | .return l value => .mk .return l (value.toList.map Expr.outline)
  | .block l body => .mk .block l (Stmt.outlineAll body)

def Stmt.outlineElse : Option Stmt → List Outline
  | none => []
  | some branch => [branch.outline]

def Stmt.outlineAll : List Stmt → List Outline
  | [] => []
  | s :: ss => s.outline :: Stmt.outlineAll ss

end

/-- The statements of a function are in one block. -/
def FunctionDef.outline (f : FunctionDef) : Outline :=
  .mk (.function f.name (Ty.ofName f.returnType) (f.parameters.map fun p => Ty.ofName p.type))
    f.location [.mk .block f.location (Stmt.outlineAll f.body)]

def Program.outline (p : Program) : Outline :=
  .mk .root .nowhere (p.functions.map FunctionDef.outline)

theorem Node.outlineAll_eq_map (ns : List Node) : Node.outlineAll ns = ns.map Node.outline := by
  induction ns with
  | nil => rfl
  | cons n ns ih => rw [Node.outlineAll, ih, map_cons]

end Backpatch
