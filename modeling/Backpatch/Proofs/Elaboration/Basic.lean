import Backpatch.Compile
import Backpatch.Proofs.Core.Code

/-!
# Elaboration

From the source of a program to its core terms, in one pass from first to last. The names that an
expression may use are in an environment that is handed down and never changed: a declaration gives
a new environment to the statements after it. What the whole function shares is in its layout: the
registers handed out, the size of the frame, and the parameters that need a place of their own.

The elaboration makes the checks that the building of the tree makes, in the same order, so it fails
for the same programs with the same error (`Program.analyze_follows`).
-/

namespace Backpatch

/-- What a name stands for. -/
inductive Meaning
  | variable (type : Ty) (pointer offset : Nat)
  | parameter (type : Ty) (index : Nat)
  | function (returnType : Ty) (parameters : List Ty)
  deriving DecidableEq

/-- The names that can be used, the innermost first. -/
structure Env where
  /-- Names declared in the innermost scope. -/
  here : List (String × Meaning) := []
  outer : List (String × Meaning)
  inLoop : Bool := false
  returnType : Ty
  /-- The place in the frame of the next variable. -/
  nextSlot : Nat := 0

namespace Env

def get? (e : Env) (name : String) : Option Meaning := (e.here ++ e.outer).lookup name

/-- The innermost scope declares the name. -/
def declares (e : Env) (name : String) : Bool := (e.here.lookup name).isSome

/-- The environment of a scope inside. -/
def inner (e : Env) (isLoop : Bool) : Env :=
  { e with here := [], outer := e.here ++ e.outer, inLoop := e.inLoop || isLoop }

def addVariable (e : Env) (name : String) (type : Ty) (pointer : Nat) : Env :=
  { e with
    here := (name, .variable type pointer e.nextSlot) :: e.here
    nextSlot := e.nextSlot + 1 }

end Env

/-- What all of a function shares. -/
structure Layout where
  /-- The number of the next register. -/
  registers : Nat
  frameSize : Nat := 0
  slots : List (Option Nat)

namespace Layout

/-- The layout after a variable got a place and a register. -/
def addVariable (layout : Layout) (slot : Nat) : Layout :=
  { layout with
    registers := layout.registers + 1
    frameSize := max layout.frameSize (slot + 1) }

/-- Gives a parameter a place of its own, unless it has one. -/
def spill (layout : Layout) (index : Nat) : Layout :=
  if layout.slots[index]? = some none then
    { layout with
      registers := layout.registers + 1
      slots := layout.slots.set index (some layout.registers) }
  else layout

end Layout

/-! ## Typed terms -/

/-- An elaborated expression. -/
inductive Typed
  | value (type : Ty) (term : Term)
  | truth (test : Test)
  /-- A call of a function that returns nothing. -/
  | void (name : String) (arguments : Arguments)

namespace Typed

def type : Typed → Ty
  | value type _ => type
  | truth _ => .bool
  | void .. => .void

/-- The expression as a value. A call that returns nothing has none, and no rule asks for it. -/
def term : Typed → Term
  | value _ term => term
  | truth test => .truth test
  | void .. => .number 0

/-- The expression as a test, for a truth value. -/
def test : Typed → Test
  | truth test => test
  | value .. | void .. => .constant false

def read (type : Ty) (place : Place) : Typed :=
  if type = .bool then truth (.read place) else value type (.read place)

/-- The arguments with the types of the parameters. -/
def arguments : List Typed → List Ty → Arguments
  | argument :: rest, type :: types => .cons type.ir argument.term (arguments rest types)
  | _, _ => .nil

def call (returnType : Ty) (name : String) (arguments : Arguments) : Typed :=
  if returnType = .void then void name arguments
  else if returnType = .bool then truth (.call name arguments)
  else value returnType (.call name returnType.ir arguments)

def cast (target : Ty) (operand : Typed) : Typed :=
  if target = .bool then truth (.same operand.test)
  else if operand.type = .int ∧ target = .byte then value .byte (.cut operand.term)
  else value target (.same operand.term)

def choice (type : Ty) (condition thenValue elseValue : Typed) : Typed :=
  if type = .bool then truth (.choice condition.test thenValue.test elseValue.test)
  else value type (.choice type.ir condition.test thenValue.term elseValue.term)

/-- The expression as a statement. -/
def action : Typed → Action
  | value _ term => .drop term
  | truth test => .check test
  | void name arguments => .run name arguments

/-- Each argument converts to the parameter in its place, and none is missing. -/
def fit : List Typed → List Ty → Bool
  | [], [] => true
  | argument :: rest, type :: types => argument.type.convertibleTo type && fit rest types
  | _, _ => false

theorem type_read (type : Ty) (place : Place) : (read type place).type = type := by
  unfold read
  split
  · rename_i bool
    exact bool.symm
  · rfl

theorem type_call (returnType : Ty) (name : String) (arguments : Arguments) :
    (call returnType name arguments).type = returnType := by
  unfold call
  split
  · rename_i void
    exact void.symm
  · split
    · rename_i bool
      exact bool.symm
    · rfl

theorem type_cast (target : Ty) (operand : Typed) : (cast target operand).type = target := by
  unfold cast
  split
  · rename_i bool
    exact bool.symm
  · split
    · rename_i cut
      exact cut.2.symm
    · rfl

theorem type_choice (type : Ty) (condition thenValue elseValue : Typed) :
    (choice type condition thenValue elseValue).type = type := by
  unfold choice
  split
  · rename_i bool
    exact bool.symm
  · rfl

end Typed

/-! ## Expressions -/

/-- Fails if the rule is broken. -/
def require (holds : Bool) (otherwise : SemanticError) : Except Failure Unit :=
  if holds then .ok () else .error (.semantic otherwise)

/-- The number that a token stands for, if it does not exceed the largest of its type. -/
def elaborateNumber (type : Ty) (token : String) (largest : Nat) (location : Location) :
    Except Failure Nat :=
  if Decimal.isDigits token.toList then do
    require (Decimal.value token.toList ≤ largest) (.literalOutOfRange type token location)
    return Decimal.value token.toList
  else .error (.internal (.notDigits token))

def Literal.elaborate (location : Location) : Literal → Except Failure Typed
  | .int digits => do
    let value ← elaborateNumber .int digits 2147483647 location
    return .value .int (.number (Int32.ofNat value).toInt)
  | .byte digits => do
    let value ← elaborateNumber .byte digits 255 location
    return .value .byte (.number (UInt8.ofNat value).toNat)
  | .bool value => return .truth (.constant value)
  | .string text => return .value .string (.text text)

/-- The place of a variable or parameter, with its type. -/
def Env.resolve (e : Env) (name : String) (location : Location) : Except Failure (Place × Ty) :=
  match e.get? name with
  | some (.variable type pointer _) => .ok (.variable pointer, type)
  | some (.parameter type index) => .ok (.parameter index, type)
  | _ => .error (.semantic (.undefinedVariable name location))

mutual

def Expr.elaborate (e : Env) : Expr → Except Failure Typed
  | .literal l value => value.elaborate l
  | .identifier l name => do
    let (place, type) ← e.resolve name l
    return .read type place
  | .call l name arguments => do
    let arguments ← Expr.elaborateAll e arguments
    match e.get? name with
    | some (.function returnType parameters) =>
      require (Typed.fit arguments parameters) (.prototypeMismatch name parameters l)
      return .call returnType name (Typed.arguments arguments parameters)
    | _ => .error (.semantic (.undefinedFunction name l))
  | .not l operand => do
    let operand ← operand.elaborate e
    require (operand.type == .bool) (.typeMismatch l)
    return .truth (.not operand.test)
  | .and l left right => do
    let left ← left.elaborate e
    let right ← right.elaborate e
    require (left.type == .bool) (.typeMismatch l)
    require (right.type == .bool) (.typeMismatch l)
    return .truth (.and left.test right.test)
  | .or l left right => do
    let left ← left.elaborate e
    let right ← right.elaborate e
    require (left.type == .bool) (.typeMismatch l)
    require (right.type == .bool) (.typeMismatch l)
    return .truth (.or left.test right.test)
  | .arithmetic l operator left right => do
    let left ← left.elaborate e
    let right ← right.elaborate e
    require left.type.isNumeric (.typeMismatch l)
    require right.type.isNumeric (.typeMismatch l)
    let type := Ty.castUp left.type right.type
    return .value type (.arithmetic operator type left.term right.term)
  | .comparison l operator left right => do
    let left ← left.elaborate e
    let right ← right.elaborate e
    require left.type.isNumeric (.typeMismatch l)
    require right.type.isNumeric (.typeMismatch l)
    let predicate := operator.predicate (Ty.castUp left.type right.type).isSigned
    return .truth (.compare predicate left.term right.term)
  | .cast l target operand => do
    let target := Ty.ofName target
    let operand ← operand.elaborate e
    require ((operand.type.isNumeric && target.isNumeric) ||
      (operand.type == target && !target.isSpecial)) (.typeMismatch l)
    return .cast target operand
  | .conditional l condition thenValue elseValue => do
    let location := condition.location
    let condition ← condition.elaborate e
    require (condition.type == .bool) (.typeMismatch location)
    let thenValue ← thenValue.elaborate e
    let elseValue ← elseValue.elaborate e
    let type := Ty.castUp thenValue.type elseValue.type
    require (type != .invalid && type != .void) (.typeMismatch l)
    return .choice type condition thenValue elseValue

def Expr.elaborateAll (e : Env) : List Expr → Except Failure (List Typed)
  | [] => return []
  | x :: xs => do
    let typed ← x.elaborate e
    let rest ← Expr.elaborateAll e xs
    return typed :: rest

end

/-- Elaborates an expression that may be missing. -/
def Expr.elaborateOption (e : Env) : Option Expr → Except Failure (Option Typed)
  | none => return none
  | some x => return some (← x.elaborate e)

/-! ## Statements -/

/-- An optional value converts to the type, if there is a value. -/
def Typed.converts : Option Typed → Ty → Bool
  | none, _ => true
  | some typed, type => typed.type.convertibleTo type

/-- The value fits what the function returns. -/
def Typed.returnFits (returnType : Ty) : Option Typed → Bool
  | none => returnType == .void
  | some typed => returnType != .void && typed.type.convertibleTo returnType

/-- The layout after an assignment: a parameter that is assigned to needs a place of its own. -/
def Layout.assign (layout : Layout) : Place → Layout
  | .variable _ => layout
  | .parameter index => layout.spill index

mutual

/-- Elaborates a statement. The environment that comes back is that of the statements after it. -/
def Stmt.elaborate : Stmt → Env → Layout → Except Failure (Action × Env × Layout)
  | .declaration l type name initializer, e, layout => do
    let type := Ty.ofName type
    let value ← Expr.elaborateOption e initializer
    require (!type.isSpecial) (.typeMismatch l)
    require (Typed.converts value type) (.typeMismatch l)
    require (!e.declares name) (.redefinition name l)
    return (.declare e.nextSlot layout.registers (value.map Typed.term),
      e.addVariable name type layout.registers, layout.addVariable e.nextSlot)
  | .assignment l name value, e, layout => do
    let value ← value.elaborate e
    let (place, type) ← e.resolve name l
    require (value.type.convertibleTo type) (.typeMismatch l)
    return (.assign place value.term, e, layout.assign place)
  | .expression _ value, e, layout => do
    let value ← value.elaborate e
    return (value.action, e, layout)
  | .conditional _ condition thenBranch elseBranch, e, layout => do
    let location := condition.location
    let condition ← condition.elaborate e
    require (condition.type == .bool) (.typeMismatch location)
    let (thenBranch, _, layout) ← thenBranch.elaborate (e.inner false) layout
    let (elseBranch, layout) ← Stmt.elaborateElse elseBranch e layout
    match elseBranch with
    | none => return (.when condition.test thenBranch, e, layout)
    | some elseBranch => return (.either condition.test thenBranch elseBranch, e, layout)
  | .loop _ condition body, e, layout => do
    let location := condition.location
    let condition ← condition.elaborate e
    require (condition.type == .bool) (.typeMismatch location)
    let (body, _, layout) ← body.elaborate (e.inner true) layout
    return (.loop condition.test body, e, layout)
  | .break l, e, layout => do
    require e.inLoop (.unexpectedBreak l)
    return (.break, e, layout)
  | .continue l, e, layout => do
    require e.inLoop (.unexpectedContinue l)
    return (.continue, e, layout)
  | .return l value, e, layout => do
    let value ← Expr.elaborateOption e value
    require (Typed.returnFits e.returnType value) (.typeMismatch l)
    return (.return (value.map Typed.term), e, layout)
  | .block _ body, e, layout => do
    let (body, _, layout) ← Stmt.elaborateAll body (e.inner false) layout
    return (.block body, e, layout)

def Stmt.elaborateElse : Option Stmt → Env → Layout → Except Failure (Option Action × Layout)
  | none, _, layout => return (none, layout)
  | some branch, e, layout => do
    let (branch, _, layout) ← branch.elaborate (e.inner false) layout
    return (some branch, layout)

def Stmt.elaborateAll : List Stmt → Env → Layout → Except Failure (Actions × Env × Layout)
  | [], e, layout => return (.nil, e, layout)
  | s :: ss, e, layout => do
    let (first, e, layout) ← s.elaborate e layout
    let (rest, e, layout) ← Stmt.elaborateAll ss e layout
    return (.cons first rest, e, layout)

end

/-! ## Functions -/

def requireFormals : List Builder.Formal → Except Failure Unit
  | [] => return ()
  | p :: ps => do
    require (!p.type.isSpecial) (.typeMismatch p.location)
    requireFormals ps

/-- Declares the parameters from the given position on in the scope of the function. -/
def bindFormals : List Builder.Formal → Nat → Env → Except Failure Env
  | [], _, e => return e
  | p :: ps, index, e => do
    require (!e.declares p.name) (.redefinition p.name p.location)
    bindFormals ps (index + 1) { e with here := (p.name, .parameter p.type index) :: e.here }

/-- The environment of the body of a function, which may use the global names and its own. -/
def elaborateHead (name : String) (returnType : Ty) (formals : List Builder.Formal)
    (location : Location) (globals : List (String × Meaning)) : Except Failure Env := do
  require (returnType != .string && returnType != .invalid) (.typeMismatch location)
  requireFormals formals
  require (globals.lookup name).isNone (.redefinition name location)
  bindFormals formals 0
    { outer := (name, .function returnType (formals.map Builder.Formal.type)) :: globals
      returnType := returnType }

/-- Elaborates a function with the global names that it may use. The names that come back are those
of the functions after it. -/
def FunctionDef.elaborate (f : FunctionDef) (globals : List (String × Meaning)) (registers : Nat) :
    Except Failure (Routine × List (String × Meaning) × Nat) := do
  let returnType := Ty.ofName f.returnType
  let formals := f.parameters.map Parameter.formal
  let parameters := formals.map Builder.Formal.type
  let e ← elaborateHead f.name returnType formals f.location globals
  let (body, _, layout) ← Stmt.elaborateAll f.body e
    { registers := registers, slots := parameters.map fun _ => none }
  return ({ name := f.name, returnType := returnType, parameters := parameters
            frameSize := layout.frameSize, slots := layout.slots, body := body },
    (f.name, .function returnType parameters) :: globals, layout.registers)

def FunctionDef.elaborateAll : List FunctionDef → List (String × Meaning) → Nat →
    Except Failure (List Routine × List (String × Meaning) × Nat)
  | [], globals, registers => return ([], globals, registers)
  | f :: fs, globals, registers => do
    let (routine, globals, registers) ← f.elaborate globals registers
    let (routines, globals, registers) ← FunctionDef.elaborateAll fs globals registers
    return (routine :: routines, globals, registers)

/-- What the runtime functions stand for. -/
def runtimeNames : List (String × Meaning) :=
  runtimeFunctions.reverse.map fun f => (f.name, .function f.returnType f.parameters)

theorem lookup_runtimeNames {name : String} {m : Meaning} (h : runtimeNames.lookup name = some m) :
    name = "printi" ∧ m = .function .void [.int] ∨ name = "print" ∧
      m = .function .void [.string] := by
  unfold runtimeNames runtimeFunctions at h
  simp only [List.reverse_cons, List.reverse_nil, List.nil_append, List.cons_append, List.map_cons,
    List.map_nil, List.lookup_cons, List.lookup_nil] at h
  split at h
  · rename_i same
    exact .inl ⟨eq_of_beq same, (Option.some.inj h).symm⟩
  · split at h
    · rename_i same
      exact .inr ⟨eq_of_beq same, (Option.some.inj h).symm⟩
    · cases h

/-- A program as core terms, and the number of registers that have been handed out. -/
def Program.elaborate (p : Program) : Except Failure (List Routine × Nat) := do
  let (routines, globals, registers) ← FunctionDef.elaborateAll p.functions runtimeNames 0
  require (globals.lookup "main" == some (.function .void [])) .missingEntryPoint
  return (routines, registers)

end Backpatch
