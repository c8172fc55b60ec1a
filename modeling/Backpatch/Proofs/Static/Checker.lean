import Backpatch.Code.Prelude
import Backpatch.Program.Basic
import Backpatch.Text.Decimal

/-!
# Static semantics

The rules that a program has to keep, as a checker that stops at the first rule that is broken. The
names that a part of a program can use are a value that is handed down to it. Nothing is opened,
closed or changed on the way: an expression gives back its type and a statement nothing at all, and
what a statement declares (`Stmt.declared`) is read off the statement.
-/

namespace Backpatch

/-- What a name is declared as. -/
inductive Entity
  | variable (type : Ty)
  | function (returnType : Ty) (parameters : List Ty)
  deriving DecidableEq

/-- The names that one scope declares, the last one first. -/
abbrev Declarations := List (String × Entity)

/-- Where an expression or a statement stands. -/
structure Lexical where
  /-- What the innermost scope has declared so far. -/
  scope : Declarations
  /-- What the scopes around it have declared, from the inside out. -/
  around : List Declarations
  /-- A loop of the same function is around. -/
  inLoop : Bool
  returnType : Ty

namespace Lexical

/-- The innermost declaration of a name. -/
def find? (x : Lexical) (name : String) : Option Entity :=
  (x.scope :: x.around).findSome? (·.lookup name)

/-- The inside of a new scope. -/
def enter (x : Lexical) (isLoop : Bool) : Lexical :=
  { x with scope := [], around := x.scope :: x.around, inLoop := x.inLoop || isLoop }

/-- Behind declarations in the same scope. -/
def declare (x : Lexical) (declarations : Declarations) : Lexical :=
  { x with scope := declarations ++ x.scope }

/-- The type of a variable or parameter. -/
def variableType (x : Lexical) (name : String) (l : Location) : Except SemanticError Ty :=
  match x.find? name with
  | some (.variable type) => .ok type
  | _ => .error (.undefinedVariable name l)

/-- The types of the result and of the parameters of a function. -/
def signature (x : Lexical) (name : String) (l : Location) : Except SemanticError (Ty × List Ty) :=
  match x.find? name with
  | some (.function returnType parameters) => .ok (returnType, parameters)
  | _ => .error (.undefinedFunction name l)

end Lexical

def expect (holds : Bool) (otherwise : SemanticError) : Except SemanticError Unit :=
  if holds then .ok () else .error otherwise

/-! ## Expressions -/

def Literal.check (l : Location) : Literal → Except SemanticError Ty
  | .int digits => do
    expect (Decimal.value digits.toList ≤ 2147483647) (.literalOutOfRange .int digits l)
    return .int
  | .byte digits => do
    expect (Decimal.value digits.toList ≤ 255) (.literalOutOfRange .byte digits l)
    return .byte
  | .bool _ => return .bool
  | .string _ => return .string

/-- As many arguments as parameters, and each converts to its parameter. -/
def argumentsFit (types parameters : List Ty) : Bool :=
  types.length == parameters.length && (types.zip parameters).all fun (a, p) => a.convertibleTo p

/-- Numbers can be cast to numbers, and values that can be stored to the type that they have. -/
def castAllowed (source target : Ty) : Bool :=
  (source.isNumeric && target.isNumeric) || (source == target && !target.isSpecial)

mutual

/-- The type of an expression. -/
def Expr.check (x : Lexical) : Expr → Except SemanticError Ty
  | .literal l value => value.check l
  | .identifier l name => x.variableType name l
  | .call l name arguments => do
    let types ← Expr.checkAll x arguments
    let (returnType, parameters) ← x.signature name l
    expect (argumentsFit types parameters) (.prototypeMismatch name parameters l)
    return returnType
  | .not l operand => do
    expect ((← operand.check x) == .bool) (.typeMismatch l)
    return .bool
  | .and l left right | .or l left right => do
    let left ← left.check x
    let right ← right.check x
    expect (left == .bool && right == .bool) (.typeMismatch l)
    return .bool
  | .arithmetic l _ left right => do
    let left ← left.check x
    let right ← right.check x
    expect (left.isNumeric && right.isNumeric) (.typeMismatch l)
    return .castUp left right
  | .comparison l _ left right => do
    let left ← left.check x
    let right ← right.check x
    expect (left.isNumeric && right.isNumeric) (.typeMismatch l)
    return .bool
  | .cast l target operand => do
    expect (castAllowed (← operand.check x) (.ofName target)) (.typeMismatch l)
    return .ofName target
  | .conditional l condition thenValue elseValue => do
    expect ((← condition.check x) == .bool) (.typeMismatch condition.location)
    let type := Ty.castUp (← thenValue.check x) (← elseValue.check x)
    expect (type != .invalid && type != .void) (.typeMismatch l)
    return type

def Expr.checkAll (x : Lexical) : List Expr → Except SemanticError (List Ty)
  | [] => return []
  | e :: es => do
    let type ← e.check x
    let types ← Expr.checkAll x es
    return type :: types

end

def Expr.checkOption (x : Lexical) : Option Expr → Except SemanticError (Option Ty)
  | none => return none
  | some e => return some (← e.check x)

/-- A condition is a truth value; the error is where the condition stands. -/
def Expr.checkCondition (x : Lexical) (e : Expr) : Except SemanticError Unit := do
  expect ((← e.check x) == .bool) (.typeMismatch e.location)

/-! ## Statements -/

/-- What a statement declares for those after it. -/
def Stmt.declared : Stmt → Declarations
  | .declaration _ type name _ => [(name, .variable (.ofName type))]
  | _ => []

/-- A function that returns nothing returns no value, and any other one that converts. -/
def returnAllowed (returnType : Ty) : Option Ty → Bool
  | none => returnType == .void
  | some type => returnType != .void && type.convertibleTo returnType

mutual

def Stmt.check : Stmt → Lexical → Except SemanticError Unit
  | .declaration l type name initializer, x => do
    let value ← Expr.checkOption x initializer
    expect (!(Ty.ofName type).isSpecial) (.typeMismatch l)
    expect (value.all (·.convertibleTo (.ofName type))) (.typeMismatch l)
    expect (x.scope.lookup name).isNone (.redefinition name l)
  | .assignment l name value, x => do
    let value ← value.check x
    let type ← x.variableType name l
    expect (value.convertibleTo type) (.typeMismatch l)
  | .expression _ value, x => do
    let _ ← value.check x
  | .conditional _ condition thenBranch elseBranch, x => do
    condition.checkCondition x
    thenBranch.check (x.enter false)
    Stmt.checkOption elseBranch (x.enter false)
  | .loop _ condition body, x => do
    condition.checkCondition x
    body.check (x.enter true)
  | .break l, x => expect x.inLoop (.unexpectedBreak l)
  | .continue l, x => expect x.inLoop (.unexpectedContinue l)
  | .return l value, x => do
    expect (returnAllowed x.returnType (← Expr.checkOption x value)) (.typeMismatch l)
  | .block _ body, x => Stmt.checkAll body (x.enter false)

def Stmt.checkOption : Option Stmt → Lexical → Except SemanticError Unit
  | none, _ => return ()
  | some s, x => s.check x

/-- Statements of one scope, each behind the declarations of those before it. -/
def Stmt.checkAll : List Stmt → Lexical → Except SemanticError Unit
  | [], _ => return ()
  | s :: ss, x => do
    s.check x
    Stmt.checkAll ss (x.declare s.declared)

end

/-! ## Functions -/

def Parameter.entry (p : Parameter) : String × Entity := (p.name, .variable (.ofName p.type))

def FunctionDef.declaration (f : FunctionDef) : String × Entity :=
  (f.name, .function (.ofName f.returnType) (f.parameters.map fun p => .ofName p.type))

def Parameter.checkTypes : List Parameter → Except SemanticError Unit
  | [] => return ()
  | p :: ps => do
    expect (!(Ty.ofName p.type).isSpecial) (.typeMismatch p.location)
    Parameter.checkTypes ps

/-- No parameter is called like one before it. -/
def Parameter.checkNames : List Parameter → Declarations → Except SemanticError Unit
  | [], _ => return ()
  | p :: ps, before => do
    expect (before.lookup p.name).isNone (.redefinition p.name p.location)
    Parameter.checkNames ps (p.entry :: before)

/-- A function, with the functions before it. It can call itself, and its parameters are in the
scope of its body. -/
def FunctionDef.check (f : FunctionDef) (before : Declarations) : Except SemanticError Unit := do
  let returnType := Ty.ofName f.returnType
  expect (returnType != .string && returnType != .invalid) (.typeMismatch f.location)
  Parameter.checkTypes f.parameters
  expect (before.lookup f.name).isNone (.redefinition f.name f.location)
  Parameter.checkNames f.parameters []
  Stmt.checkAll f.body
    { scope := (f.parameters.map Parameter.entry).reverse, around := [f.declaration :: before]
      inLoop := false, returnType := returnType }

def FunctionDef.checkAll : List FunctionDef → Declarations → Except SemanticError Unit
  | [], _ => return ()
  | f :: fs, before => do
    f.check before
    FunctionDef.checkAll fs (f.declaration :: before)

/-! ## Programs -/

/-- The functions that every program may call. -/
def runtimeDeclarations : Declarations :=
  [("print", .function .void [.string]), ("printi", .function .void [.int])]

/-- A program: its functions in the order of the source, one of which is `void main()`. -/
def Program.check (p : Program) : Except SemanticError Unit := do
  FunctionDef.checkAll p.functions runtimeDeclarations
  expect (p.functions.any (·.declaration == ("main", .function .void []))) .missingEntryPoint

/-! ## Numbers -/

mutual

/-- The numbers of an expression, as they are written. -/
def Expr.tokens : Expr → List String
  | .literal _ (.int digits) | .literal _ (.byte digits) => [digits]
  | .literal _ (.bool _) | .literal _ (.string _) | .identifier _ _ => []
  | .call _ _ arguments => Expr.tokensAll arguments
  | .not _ operand | .cast _ _ operand => operand.tokens
  | .and _ left right | .or _ left right | .arithmetic _ _ left right | .comparison _ _
      left right =>
    left.tokens ++ right.tokens
  | .conditional _ condition thenValue elseValue =>
    condition.tokens ++ thenValue.tokens ++ elseValue.tokens

def Expr.tokensAll : List Expr → List String
  | [] => []
  | e :: es => e.tokens ++ Expr.tokensAll es

end

def Expr.tokensOption : Option Expr → List String
  | none => []
  | some e => e.tokens

mutual

def Stmt.tokens : Stmt → List String
  | .declaration _ _ _ initializer => Expr.tokensOption initializer
  | .assignment _ _ value | .expression _ value => value.tokens
  | .conditional _ condition thenBranch elseBranch =>
    condition.tokens ++ thenBranch.tokens ++ Stmt.tokensOption elseBranch
  | .loop _ condition body => condition.tokens ++ body.tokens
  | .break _ | .continue _ => []
  | .return _ value => Expr.tokensOption value
  | .block _ body => Stmt.tokensAll body

def Stmt.tokensOption : Option Stmt → List String
  | none => []
  | some s => s.tokens

def Stmt.tokensAll : List Stmt → List String
  | [] => []
  | s :: ss => s.tokens ++ Stmt.tokensAll ss

end

/-- The numbers of a program, as they are written. -/
def Program.tokens (p : Program) : List String := p.functions.flatMap fun f => Stmt.tokensAll f.body

end Backpatch
