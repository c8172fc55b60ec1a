import Backpatch.Code.Prelude
import Backpatch.Program.Basic
import Backpatch.Symbol
import Backpatch.Text.Decimal
import Backpatch.Tree.Forest

/-!
# Building checked trees

One operation for each kind of expression and statement. It checks the parts against the rules of
the language and against the scopes that are open, and makes the node. Every rule that a program
can break is a `SemanticError`; what was declared before the error stays declared. Misuse of the
operations themselves is a `Fault`.

The rules: names are declared before they are used, and once in a scope. Operands of arithmetic and
comparisons are numbers, conditions and operands of logic are truth values. A value may be assigned,
passed or returned where its type converts (`Ty.convertibleTo`). Only `break` and `continue` inside
a loop make sense, and a function returns a value exactly if its type is not `void`.
-/

namespace Backpatch

/-- The function whose body is being built. -/
structure OpenFunction where
  name : String
  returnType : Ty
  parameters : List Ty
  slots : List (Option Register)
  deriving DecidableEq, Inhabited

/-- What the building of a tree reads and changes. -/
structure Builder where
  names : NameSupply := {}
  symbols : SymbolTable := {}
  forest : Forest := {}
  function : Option OpenFunction := none
  deriving Inhabited

/-- A step of the building. The changes made before a semantic error remain. -/
abbrev BuildM := ExceptT SemanticError (StateT Builder (Except Fault))

namespace Builder

def fault {α : Type} (f : Fault) : BuildM α := ExceptT.mk fun _ => .error f

def run {α : Type} (step : BuildM α) (b : Builder) :
    Except Fault (Except SemanticError α × Builder) :=
  (ExceptT.run step).run b

/-- Makes a node. -/
def add (kind : NodeKind) (location : Location) (children : List Node) : BuildM Node :=
  ExceptT.mk fun ⟨names, symbols, forest, function⟩ => do
    let (node, forest) ← forest.add kind location children
    return (.ok node, ⟨names, symbols, forest, function⟩)

def addExpression (kind : ExprKind) (type : Ty) (location : Location) (children : List Node) :
    BuildM Node :=
  add (.expression type kind) location children

def addStatement (kind : StmtKind) (location : Location) (children : List Node) : BuildM Node :=
  add (.statement kind) location children

def freshRegister : BuildM Register :=
  ExceptT.mk fun ⟨names, symbols, forest, function⟩ =>
    let (register, names) := names.freshRegister
    .ok (.ok register, ⟨names, symbols, forest, function⟩)

/-- A declaration, which leaves the symbols as they are if it fails. -/
def declare {α : Type} (step : SymbolTable → Except SemanticError (α × SymbolTable)) : BuildM α :=
  ExceptT.mk fun ⟨names, symbols, forest, function⟩ =>
    match step symbols with
    | .ok (a, symbols) => .ok (.ok a, ⟨names, symbols, forest, function⟩)
    | .error e => .ok (.error e, ⟨names, symbols, forest, function⟩)

def modifySymbols (f : SymbolTable → SymbolTable) : BuildM Unit :=
  declare fun symbols => .ok ((), f symbols)

def openScope (isLoop : Bool) : BuildM Unit := modifySymbols (·.openScope isLoop)

def closeScope : BuildM Unit := modifySymbols (·.closeScope)

def setFunction (function : Option OpenFunction) : BuildM Unit :=
  ExceptT.mk fun ⟨names, symbols, forest, _⟩ => .ok (.ok (), ⟨names, symbols, forest, function⟩)

def typeOf (n : Node) : BuildM Ty :=
  match n.type? with
  | some type => pure type
  | none => fault (.notExpression n.id)

def check (holds : Bool) (otherwise : SemanticError) : BuildM Unit :=
  if holds then pure () else throw otherwise

/-! ## Expressions -/

def expectType (n : Node) (expected : Ty) (location : Location) : BuildM Unit := do
  check ((← typeOf n) == expected) (.typeMismatch location)

def expectNumeric (n : Node) (location : Location) : BuildM Unit := do
  check (← typeOf n).isNumeric (.typeMismatch location)

/-- A condition has to be a truth value; the error is where the condition stands. -/
def checkCondition (condition : Node) : BuildM Unit :=
  expectType condition .bool condition.location

/-- The number that a token stands for, if it does not exceed the largest of its type. -/
def number (type : Ty) (token : String) (largest : Nat) (location : Location) : BuildM Nat := do
  if Decimal.isDigits token.toList then
    let value := Decimal.value token.toList
    check (value ≤ largest) (.literalOutOfRange type token location)
    return value
  else fault (.notDigits token)

def literalValue (location : Location) : Literal → BuildM LiteralValue
  | .int digits => do
    return .int (Int32.ofNat (← number .int digits 2147483647 location))
  | .byte digits => do
    return .byte (UInt8.ofNat (← number .byte digits 255 location))
  | .bool value => return .bool value
  | .string text => return .string text

def literal (source : Literal) (location : Location) : BuildM Node := do
  let value ← literalValue location source
  addExpression (.literal value) value.type location []

/-- The variable or parameter that a name stands for, with its type. -/
def resolve (name : String) (location : Location) : BuildM (Binding × Ty) := do
  match (← get).symbols.get? name with
  | none => throw (.undefinedVariable name location)
  | some symbol =>
    match symbol.kind with
    | .variable pointer => return (.local pointer, symbol.type)
    | .parameter =>
      match symbol.parameterIndex with
      | some index => return (.parameter index, symbol.type)
      | none => fault (.parameterOffset name symbol.offset)
    | .function _ => throw (.undefinedVariable name location)

def identifier (name : String) (location : Location) : BuildM Node := do
  let (binding, type) ← resolve name location
  addExpression (.identifier name binding) type location []

/-- Each argument converts to the parameter in its place. -/
def argumentsConvert : List Node → List Ty → BuildM Bool
  | argument :: arguments, parameter :: parameters => do
    if (← typeOf argument).convertibleTo parameter then argumentsConvert arguments parameters
    else return false
  | _, _ => return true

def call (name : String) (arguments : List Node) (location : Location) : BuildM Node := do
  match (← get).symbols.get? name with
  | some ⟨_, returnType, _, .function parameters⟩ =>
    let fits ←
      if arguments.length = parameters.length then argumentsConvert arguments parameters
      else pure false
    check fits (.prototypeMismatch name parameters location)
    addExpression (.call name parameters) returnType location arguments
  | _ => throw (.undefinedFunction name location)

def not (operand : Node) (location : Location) : BuildM Node := do
  expectType operand .bool location
  addExpression .not .bool location [operand]

def and (left right : Node) (location : Location) : BuildM Node := do
  expectType left .bool location
  expectType right .bool location
  addExpression .and .bool location [left, right]

def or (left right : Node) (location : Location) : BuildM Node := do
  expectType left .bool location
  expectType right .bool location
  addExpression .or .bool location [left, right]

/-- Arithmetic on a byte and an int is arithmetic on ints. -/
def arithmetic (operator : Arithmetic) (left right : Node) (location : Location) :
    BuildM Node := do
  expectNumeric left location
  expectNumeric right location
  let type := Ty.castUp (← typeOf left) (← typeOf right)
  addExpression (.arithmetic operator) type location [left, right]

def comparison (operator : Comparison) (left right : Node) (location : Location) :
    BuildM Node := do
  expectNumeric left location
  expectNumeric right location
  addExpression (.comparison operator) .bool location [left, right]

/-- A cast is between numeric types, or to the type that the operand has already. -/
def cast (target : Ty) (operand : Node) (location : Location) : BuildM Node := do
  let source ← typeOf operand
  check ((source.isNumeric && target.isNumeric) || (source == target && !target.isSpecial))
    (.typeMismatch location)
  addExpression (.cast target) target location [operand]

/-- The value of one of two expressions, which have a common type that is not `void`. -/
def conditional (condition thenValue elseValue : Node) (location : Location) : BuildM Node := do
  expectType condition .bool location
  let type := Ty.castUp (← typeOf thenValue) (← typeOf elseValue)
  check (type != .invalid && type != .void) (.typeMismatch location)
  addExpression .conditional type location [condition, thenValue, elseValue]

/-! ## Statements -/

/-- The value converts to the type, if there is a value. -/
def converts : Option Node → Ty → BuildM Bool
  | none, _ => return true
  | some value, type => return (← typeOf value).convertibleTo type

def declaration (type : Ty) (name : String) (initializer : Option Node) (location : Location) :
    BuildM Node := do
  check (!type.isSpecial) (.typeMismatch location)
  check (← converts initializer type) (.typeMismatch location)
  let pointer ← freshRegister
  let slot ← declare fun symbols => symbols.addVariable name type pointer location
  addStatement (.declaration name type slot pointer) location initializer.toList

/-- Gives a parameter that is assigned to a place of its own. -/
def spillParameter (index : Nat) : BuildM Unit := do
  match (← get).function with
  | none => fault .parameterOutsideFunction
  | some function =>
    match function.slots[index]? with
    | none => fault .outOfRange
    | some (some _) => pure ()
    | some none => do
      let slot ← freshRegister
      setFunction (some { function with slots := function.slots.set index (some slot) })

def assignment (name : String) (value : Node) (location : Location) : BuildM Node := do
  let (binding, type) ← resolve name location
  check ((← typeOf value).convertibleTo type) (.typeMismatch location)
  match binding with
  | .parameter index => spillParameter index
  | .local _ => pure ()
  addStatement (.assignment binding) location [value]

def expressionStatement (value : Node) (location : Location) : BuildM Node :=
  addStatement .expression location [value]

def ifStatement (condition thenBranch : Node) (elseBranch : Option Node) (location : Location) :
    BuildM Node := do
  checkCondition condition
  addStatement .conditional location (condition :: thenBranch :: elseBranch.toList)

def whileStatement (condition body : Node) (location : Location) : BuildM Node := do
  checkCondition condition
  addStatement .loop location [condition, body]

def breakStatement (location : Location) : BuildM Node := do
  check (← get).symbols.inLoop (.unexpectedBreak location)
  addStatement .break location []

def continueStatement (location : Location) : BuildM Node := do
  check (← get).symbols.inLoop (.unexpectedContinue location)
  addStatement .continue location []

/-- The value fits what the function returns. -/
def returnFits (returnType : Ty) : Option Node → BuildM Bool
  | none => return returnType == .void
  | some value =>
    if returnType = .void then return false
    else return (← typeOf value).convertibleTo returnType

def returnStatement (value : Option Node) (location : Location) : BuildM Node := do
  match (← get).function with
  | none => fault .statementOutsideFunction
  | some function =>
    check (← returnFits function.returnType value) (.typeMismatch location)
    addStatement .return location value.toList

def block (statements : List Node) (location : Location) : BuildM Node :=
  addStatement .block location statements

/-! ## Functions -/

/-- A parameter of a function that is about to be built. -/
structure Formal where
  type : Ty
  name : String
  location : Location
  deriving DecidableEq, Inhabited

def checkFormals : List Formal → BuildM Unit
  | [] => pure ()
  | p :: ps => do
    check (!p.type.isSpecial) (.typeMismatch p.location)
    checkFormals ps

def declareFormals : List Formal → BuildM Unit
  | [] => pure ()
  | p :: ps => do
    let _ ← declare fun symbols => symbols.addParameter p.name p.type p.location
    declareFormals ps

/-- Declares a function and opens the scope of its body. The function can be called in its own
body. -/
def beginFunction (name : String) (returnType : Ty) (formals : List Formal)
    (location : Location) : BuildM Unit := do
  if (← get).function.isSome || (← get).symbols.depth != 0 then fault (.nestedFunction name)
  check (returnType != .string && returnType != .invalid) (.typeMismatch location)
  checkFormals formals
  let parameters := formals.map Formal.type
  declare fun symbols => do
    return ((), ← symbols.addFunction name returnType parameters location)
  modifySymbols (·.resetFrame)
  openScope false
  declareFormals formals
  setFunction (some
    { name := name, returnType := returnType, parameters := parameters
      slots := parameters.map fun _ => none })

/-- Closes the scope of the function and makes its node around the body. -/
def endFunction (body : Node) (location : Location) : BuildM Node := do
  match (← get).function with
  | none => fault .noFunctionToEnd
  | some function =>
    setFunction none
    closeScope
    let info : FunctionInfo :=
      { name := function.name, returnType := function.returnType
        parameters := function.parameters, frameSize := (← get).symbols.frameSize
        slots := function.slots }
    add (.function info) location [body]

/-- The program starts with `void main()`. -/
def hasEntryPoint (symbols : SymbolTable) : Bool :=
  match symbols.global.get? "main" with
  | some ⟨_, .void, _, .function []⟩ => true
  | _ => false

/-- Makes the root of a complete program. -/
def finish (functions : List Node) : BuildM Node := do
  check (hasEntryPoint (← get).symbols) .missingEntryPoint
  add .root .nowhere functions

/-- Declares a runtime function, unless the global scope knows the name already. -/
def declareRuntime (symbols : SymbolTable) (f : RuntimeFunction) : Except Fault SymbolTable :=
  if symbols.global.contains f.name then .ok symbols
  else
    match symbols.addFunction f.name f.returnType f.parameters .nowhere with
    | .ok declared => .ok declared
    | .error e => .error (.runtimeFunctionTaken f.name e)

/-- A builder without nodes, whose programs may call the runtime functions. -/
def start (names : NameSupply) (symbols : SymbolTable) : Except Fault Builder := do
  let symbols ← runtimeFunctions.foldlM declareRuntime symbols
  return { names := names, symbols := symbols }

end Builder

end Backpatch
