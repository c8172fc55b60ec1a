import Backpatch.Proofs.Semantics.Outcome

/-!
# Meaning of programs

What a program does when it is run, said of its source and without regard to the generated code.
Expressions are evaluated from left to right. The right operand of `and` and `or` is evaluated only
where the left one does not decide, and of the arms of a conditional expression only the one that is
chosen.

Arithmetic is that of the integers, brought back to the range of its type (`Value.ofNumber`). A
number changes its type where another one is expected, so the value of an expression always has the
type that the checker has found for it (`Expr.typeIn`); this is why the arm that is not chosen still
matters for the type of a conditional expression.

The variables are in a store with the innermost first. A statement with a scope of its own drops
what it has declared when it is left. Calls and loops are bounded by a limit: `Program.Runs` asks
for one that is large enough.
-/

namespace Backpatch

/-! ## Values -/

inductive Value
  | int (value : BitVec 32)
  | byte (value : BitVec 8)
  | bool (value : Bool)
  | string (text : String)
  | void
  deriving DecidableEq, Repr

namespace Value

def type : Value → Ty
  | int _ => .int
  | byte _ => .byte
  | bool _ => .bool
  | string _ => .string
  | void => .void

/-- The integer that a number stands for. Bytes are unsigned. -/
def number? : Value → Option Int
  | int value => some value.toInt
  | byte value => some value.toNat
  | _ => none

/-- The number of this type that an integer becomes: modulo 256 for a byte, and modulo 2^32
otherwise. -/
def ofNumber (type : Ty) (n : Int) : Value :=
  if type = .byte then byte (BitVec.ofInt 8 n) else int (BitVec.ofInt 32 n)

/-- The value where one of this type is expected. Only numbers change. -/
def convert (type : Ty) (v : Value) : Value :=
  match v.number? with
  | some n => if type.isNumeric then ofNumber type n else v
  | none => v

/-- What a variable holds that has not been initialized, and what a function returns that ends
without saying so. -/
def initial : Ty → Value
  | .int => int 0
  | .byte => byte 0
  | .bool => bool false
  | _ => void

def truth : Value → Outcome Bool
  | bool value => pure value
  | _ => .unfinished

end Value

def Literal.meaning : Literal → Value
  | .int digits => .ofNumber .int (Decimal.value digits.toList)
  | .byte digits => .ofNumber .byte (Decimal.value digits.toList)
  | .bool value => .bool value
  | .string text => .string text

/-- The operation on integers. The quotient is rounded towards zero. -/
def Arithmetic.exact : Arithmetic → Int → Int → Int
  | add, x, y => x + y
  | sub, x, y => x - y
  | mul, x, y => x * y
  | div, x, y => x.tdiv y

/-- The operation on numbers. A division by zero ends the run with a message, and the one quotient
that is out of range is left open. -/
def Arithmetic.meaning (overflow : Option Word) (operator : Arithmetic) (a b : Value) :
    Outcome Value :=
  match a.number?, b.number? with
  | some x, some y =>
    let type := Ty.castUp a.type b.type
    if operator = .div ∧ y = 0 then .stopped [.text zeroDivisionMessage] (.exited 0)
    else if operator = .div ∧ x = -2147483648 ∧ y = -1 then do return .int (← .ofOption overflow)
    else return .ofNumber type (operator.exact x y)
  | _, _ => .unfinished

def Comparison.holds : Comparison → Int → Int → Bool
  | equal, x, y => x = y
  | notEqual, x, y => x ≠ y
  | less, x, y => x < y
  | greater, x, y => x > y
  | lessEqual, x, y => x ≤ y
  | greaterEqual, x, y => x ≥ y

def Comparison.meaning (operator : Comparison) (a b : Value) : Outcome Value :=
  match a.number?, b.number? with
  | some x, some y => return .bool (operator.holds x y)
  | _, _ => .unfinished

/-! ## Expressions -/

/-- The variables with their values, the innermost first. -/
abbrev Store := List (String × Value)

/-- What the code of a function is run with. -/
structure Setting where
  /-- The quotient of the least number and minus one, if there is one. -/
  overflow : Option Word
  /-- The types of the values that functions return. -/
  returnType : String → Ty
  call : String → List Value → Outcome Value
  /-- How often a loop may be repeated. -/
  limit : Nat

/-- The type of an expression. -/
def Expr.typeIn (S : Setting) (store : Store) : Expr → Ty
  | .literal _ value => value.meaning.type
  | .identifier _ name => ((store.lookup name).map Value.type).getD .invalid
  | .call _ name _ => S.returnType name
  | .not _ _ | .and _ _ _ | .or _ _ _ | .comparison _ _ _ _ => .bool
  | .arithmetic _ _ left right => Ty.castUp (left.typeIn S store) (right.typeIn S store)
  | .cast _ target _ => Ty.ofName target
  | .conditional _ _ thenValue elseValue =>
    Ty.castUp (thenValue.typeIn S store) (elseValue.typeIn S store)

mutual

def Expr.eval (S : Setting) (store : Store) : Expr → Outcome Value
  | .literal _ value => return value.meaning
  | .identifier _ name => .ofOption (store.lookup name)
  | .call _ name arguments => do S.call name (← Expr.evalAll S store arguments)
  | .not _ operand => do
    let b ← (← operand.eval S store).truth
    return .bool !b
  | .and _ left right => do
    if ← (← left.eval S store).truth then right.eval S store else return .bool false
  | .or _ left right => do
    if ← (← left.eval S store).truth then return .bool true else right.eval S store
  | .arithmetic _ operator left right => do
    let a ← left.eval S store
    let b ← right.eval S store
    operator.meaning S.overflow a b
  | .comparison _ operator left right => do
    let a ← left.eval S store
    let b ← right.eval S store
    operator.meaning a b
  | .cast _ target operand => do return (← operand.eval S store).convert (Ty.ofName target)
  | .conditional l condition thenValue elseValue => do
    let type := Expr.typeIn S store (.conditional l condition thenValue elseValue)
    let b ← (← condition.eval S store).truth
    let value ← (if b then thenValue.eval S store else elseValue.eval S store)
    return value.convert type

def Expr.evalAll (S : Setting) (store : Store) : List Expr → Outcome (List Value)
  | [] => return []
  | x :: xs => do
    let value ← x.eval S store
    let rest ← Expr.evalAll S store xs
    return value :: rest

end

/-! ## Statements -/

namespace Store

/-- Assigns to the innermost variable of this name. -/
def assign (name : String) (value : Value) : Store → Option Store
  | [] => none
  | (name', old) :: rest =>
    if name' = name then some ((name', value.convert old.type) :: rest)
    else (assign name value rest).map ((name', old) :: ·)

/-- Drops what has been declared since the store was this one. -/
def leave (before after : Store) : Store := after.drop (after.length - before.length)

end Store

/-- Executes a statement in a scope of its own. -/
def inScope (body : Store → Outcome (Flow Value × Store)) (store : Store) :
    Outcome (Flow Value × Store) := do
  let (flow, after) ← body store
  return (flow, store.leave after)

mutual

def Stmt.exec (S : Setting) : Stmt → Store → Outcome (Flow Value × Store)
  | .declaration _ type name none, store =>
    return (.next, (name, .initial (Ty.ofName type)) :: store)
  | .declaration _ type name (some x), store => do
    let value ← x.eval S store
    return (.next, (name, value.convert (Ty.ofName type)) :: store)
  | .assignment _ name x, store => do
    let value ← x.eval S store
    return (.next, ← .ofOption (store.assign name value))
  | .expression _ x, store => do
    let _ ← x.eval S store
    return (.next, store)
  | .conditional _ condition thenBranch elseBranch, store => do
    if ← (← condition.eval S store).truth then inScope (thenBranch.exec S) store
    else Stmt.execElse S elseBranch store
  | .loop _ condition body, store =>
    iterate (fun store => do (← condition.eval S store).truth) (inScope (body.exec S)) S.limit store
  | .break _, store => return (.break, store)
  | .continue _, store => return (.continue, store)
  | .return _ none, store => return (.return .void, store)
  | .return _ (some x), store => do
    let value ← x.eval S store
    return (.return value, store)
  | .block _ body, store => inScope (Stmt.execAll S body) store

def Stmt.execElse (S : Setting) : Option Stmt → Store → Outcome (Flow Value × Store)
  | none, store => return (.next, store)
  | some branch, store => inScope (branch.exec S) store

def Stmt.execAll (S : Setting) : List Stmt → Store → Outcome (Flow Value × Store)
  | [], store => return (.next, store)
  | s :: ss, store => do
    match ← s.exec S store with
    | (.next, store) => Stmt.execAll S ss store
    | (flow, store) => return (flow, store)

end

/-! ## Programs -/

/-- What comes of the body of a function. The end of the body of `main` is the end of the whole
run. -/
def FunctionDef.finish (f : FunctionDef) : Flow Value → Outcome Value
  | .return value => return value.convert (Ty.ofName f.returnType)
  | .next =>
    if f.name = "main" then .stopped [] (.exited 0) else return .initial (Ty.ofName f.returnType)
  | _ => .unfinished

def FunctionDef.run (S : Setting) (f : FunctionDef) (values : List Value) : Outcome Value :=
  if values.length = f.parameters.length then do
    let store :=
      List.zipWith (fun p v => (p.name, Value.convert (Ty.ofName p.type) v)) f.parameters values
    let (flow, _) ← Stmt.execAll S f.body store.reverse
    f.finish flow
  else .unfinished

/-- The functions that every program can call. -/
def runtimeCall : String → List Value → Outcome Value
  | "print", [.string text] => .done [.text text.toUTF8.toList] .void
  | "printi", [v] =>
    match v.convert .int with
    | .int w => .done [.number w] .void
    | _ => .unfinished
  | _, _ => .unfinished

namespace Program

def function? (p : Program) (name : String) : Option FunctionDef :=
  p.functions.find? (·.name == name)

/-- The functions of the runtime return nothing. -/
def returnType (p : Program) (name : String) : Ty :=
  ((p.function? name).map fun f => Ty.ofName f.returnType).getD .void

def call (p : Program) (overflow : Option Word) : Nat → String → List Value → Outcome Value
  | 0, _, _ => .unfinished
  | limit + 1, name, values =>
    match p.function? name with
    | some f =>
      f.run
        { overflow := overflow, returnType := p.returnType, call := p.call overflow limit,
          limit := limit } values
    | none => runtimeCall name values

/-- What the functions of the program are run with. -/
def setting (p : Program) (overflow : Option Word) (limit : Nat) : Setting :=
  { overflow := overflow, returnType := p.returnType, call := p.call overflow limit,
    limit := limit }

/-- The program, run from `main` on, ends and has shown the events. -/
def Runs (p : Program) (overflow : Option Word) (trace : List Event) (ending : Ending) : Prop :=
  ∃ limit, p.call overflow limit "main" [] = .stopped trace ending ∨
    p.call overflow limit "main" [] = .done trace .void ∧ ending = .returned

end Program

end Backpatch
