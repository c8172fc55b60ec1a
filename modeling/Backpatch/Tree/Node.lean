import Backpatch.Code.Name
import Backpatch.Location
import Backpatch.Operator
import Backpatch.Ty

/-!
# Nodes of the analyzed tree

A checked program is a tree of nodes. Every node has a number of its own, its place in the order in
which nodes are made, and a kind that says what it is; names are resolved, expressions have a type,
and a function knows the size of its frame. The children stand in the order of evaluation, and so
were made before their parent.
-/

namespace Backpatch

/-- The number of a node. -/
abbrev NodeId := Nat

/-- Where the value of a name is kept: at the address in a register, or with a parameter. -/
inductive Binding
  | local (pointer : Register)
  | parameter (index : Nat)
  deriving DecidableEq, Repr, Inhabited

/-- The value of a literal that is in the range of its type. -/
inductive LiteralValue
  | int (value : Int32)
  | byte (value : UInt8)
  | bool (value : Bool)
  | string (text : String)
  deriving DecidableEq, Inhabited

def LiteralValue.type : LiteralValue → Ty
  | int _ => .int
  | byte _ => .byte
  | bool _ => .bool
  | string _ => .string

inductive ExprKind
  | literal (value : LiteralValue)
  | identifier (name : String) (binding : Binding)
  | call (name : String) (parameters : List Ty)
  | not
  | and
  | or
  | arithmetic (operator : Arithmetic)
  | comparison (operator : Comparison)
  | cast (target : Ty)
  | conditional
  deriving DecidableEq, Inhabited

inductive StmtKind
  /-- A variable with its type, its place in the frame, and the register for its address. -/
  | declaration (name : String) (type : Ty) (offset : Int) (pointer : Register)
  | assignment (binding : Binding)
  | expression
  | conditional
  | loop
  | break
  | continue
  | return
  | block
  deriving DecidableEq, Inhabited

/-- A function: its signature, the size of its frame, and for each parameter the register for the
address of its own place, if it needs one. -/
structure FunctionInfo where
  name : String
  returnType : Ty
  parameters : List Ty
  frameSize : Int
  slots : List (Option Register)
  deriving DecidableEq, Inhabited

inductive NodeKind
  | expression (type : Ty) (kind : ExprKind)
  | statement (kind : StmtKind)
  | function (info : FunctionInfo)
  | root
  deriving DecidableEq, Inhabited

inductive Node
  | mk (id : NodeId) (location : Location) (kind : NodeKind) (children : List Node)
  deriving Inhabited

namespace Node

def id : Node → NodeId
  | mk id _ _ _ => id

def location : Node → Location
  | mk _ location _ _ => location

def kind : Node → NodeKind
  | mk _ _ kind _ => kind

def children : Node → List Node
  | mk _ _ _ children => children

/-- The type of an expression. -/
def type? (n : Node) : Option Ty :=
  match n.kind with
  | .expression type _ => some type
  | _ => none

mutual

/-- The nodes of the tree below a node, each after its children, and the node itself last. -/
def postorder : Node → List Node
  | mk id location kind children =>
    postorderAll children ++ [mk id location kind children]

def postorderAll : List Node → List Node
  | [] => []
  | n :: ns => postorder n ++ postorderAll ns

end

end Node

end Backpatch
