import Backpatch.Proofs.Semantics.Outcome

/-!
# Meaning of core terms

What a core term, a test and an action compute, over words. Names and types are gone: variables and
parameters are known by their places, a byte is a word below 256, and a truth value that is kept is
0 or 1. There are no scopes any more, since no two variables share a place here.
-/

namespace Backpatch

/-- A value of a core term: a number, or a text. -/
inductive Scalar
  | word (value : Word)
  | text (text : String)
  deriving DecidableEq, Repr

namespace Scalar

def word? : Scalar → Option Word
  | word value => some value
  | text _ => none

def number (c : Scalar) : Outcome Word := .ofOption c.word?

@[simp] theorem number_word_bind {β : Type} (w : Word) (next : Word → Outcome β) :
    (word w).number >>= next = next w := pure_bind w next

/-- A truth value as a number. -/
def ofBool (b : Bool) : Scalar := word (if b then 1 else 0)

end Scalar

/-- What every place holds. -/
abbrev Locals := Place → Word

def Locals.set (σ : Locals) (place : Place) (w : Word) : Locals :=
  fun p => if p = place then w else σ p

theorem Locals.set_self (σ : Locals) (place : Place) (w : Word) :
    σ.set place w place = w := if_pos rfl

theorem Locals.set_of_ne {place other : Place} (h : other ≠ place) (σ : Locals) (w : Word) :
    σ.set place w other = σ other := if_neg h

/-- What the core terms of a function are run with. -/
structure CoreSetting where
  overflow : Option Word
  call : String → List Scalar → Outcome (Option Scalar)
  limit : Nat

/-- The operation on words, without a check of the divisor. -/
def Arithmetic.compute (overflow : Option Word) (operator : Arithmetic) (type : Ty) (x y : Word) :
    Outcome Word := do
  let w ← .ofOption ((operator.opcode type.isSigned).apply overflow x y)
  return if type = .byte then w &&& 255 else w

/-- The operation on words. A division by zero ends the run. -/
def Arithmetic.coreMeaning (overflow : Option Word) (operator : Arithmetic) (type : Ty)
    (x y : Word) : Outcome Word :=
  if operator = .div ∧ y = 0 then .stopped [.text zeroDivisionMessage] (.exited 0)
  else operator.compute overflow type x y

mutual

def Term.eval (C : CoreSetting) (σ : Locals) : Term → Outcome Scalar
  | .number value => return .word (BitVec.ofInt 32 value)
  | .text text => return .text text
  | .read place => return .word (σ place)
  | .call name _ arguments => do .ofOption (← C.call name (← arguments.eval C σ))
  | .truth test => do return .ofBool (← test.eval C σ)
  | .arithmetic operator type left right => do
    let x ← (← left.eval C σ).number
    let y ← (← right.eval C σ).number
    return .word (← operator.coreMeaning C.overflow type x y)
  | .cut operand => do
    let x ← (← operand.eval C σ).number
    return .word (x &&& 255)
  | .same operand => operand.eval C σ
  | .choice _ condition thenValue elseValue => do
    if ← condition.eval C σ then thenValue.eval C σ else elseValue.eval C σ

def Test.eval (C : CoreSetting) (σ : Locals) : Test → Outcome Bool
  | .constant value => return value
  | .read place => return σ place != 0
  | .call name arguments => do
    let w ← (← .ofOption (← C.call name (← arguments.eval C σ))).number
    return w != 0
  | .not operand => do return !(← operand.eval C σ)
  | .and left right => do if ← left.eval C σ then right.eval C σ else return false
  | .or left right => do if ← left.eval C σ then return true else right.eval C σ
  | .compare predicate left right => do
    let x ← (← left.eval C σ).number
    let y ← (← right.eval C σ).number
    return predicate.holds x y
  | .same operand => operand.eval C σ
  | .choice condition thenTest elseTest => do
    if ← condition.eval C σ then thenTest.eval C σ else elseTest.eval C σ

def Arguments.eval (C : CoreSetting) (σ : Locals) : Arguments → Outcome (List Scalar)
  | .nil => return []
  | .cons _ value rest => do
    let v ← value.eval C σ
    let vs ← rest.eval C σ
    return v :: vs

end

mutual

def Action.exec (C : CoreSetting) : Action → Locals → Outcome (Flow (Option Scalar) × Locals)
  | .declare _ pointer none, σ => return (.next, σ.set (.variable pointer) 0)
  | .declare _ pointer (some value), σ => do
    let w ← (← value.eval C σ).number
    return (.next, σ.set (.variable pointer) w)
  | .assign place value, σ => do
    let w ← (← value.eval C σ).number
    return (.next, σ.set place w)
  | .drop value, σ => do
    let _ ← value.eval C σ
    return (.next, σ)
  | .run name arguments, σ => do
    match ← C.call name (← arguments.eval C σ) with
    | none => return (.next, σ)
    | some _ => .unfinished
  | .check condition, σ => do
    let _ ← condition.eval C σ
    return (.next, σ)
  | .when condition body, σ => do if ← condition.eval C σ then body.exec C σ else return (.next, σ)
  | .either condition thenBranch elseBranch, σ => do
    if ← condition.eval C σ then thenBranch.exec C σ else elseBranch.exec C σ
  | .loop condition body, σ => iterate (fun σ => condition.eval C σ) (body.exec C) C.limit σ
  | .break, σ => return (.break, σ)
  | .continue, σ => return (.continue, σ)
  | .return none, σ => return (.return none, σ)
  | .return (some value), σ => do
    let v ← value.eval C σ
    return (.return (some v), σ)
  | .block body, σ => body.exec C σ

def Actions.exec (C : CoreSetting) : Actions → Locals → Outcome (Flow (Option Scalar) × Locals)
  | .nil, σ => return (.next, σ)
  | .cons first rest, σ => do
    match ← first.exec C σ with
    | (.next, σ) => rest.exec C σ
    | (flow, σ) => return (flow, σ)

end

/-- What the places of a function hold when it is called. -/
def Locals.ofArguments (words : List Word) : Locals
  | .variable _ => 0
  | .parameter index => words[index]?.getD 0

namespace Routine

/-- What comes of the body of a function. -/
def finish (f : Routine) : Flow (Option Scalar) → Outcome (Option Scalar)
  | .return value => return value
  | .next =>
    if f.name = "main" then .stopped [] (.exited 0)
    else return if f.returnType = .void then none else some (.word 0)
  | _ => .unfinished

def run (C : CoreSetting) (f : Routine) (arguments : List Scalar) : Outcome (Option Scalar) := do
  let words ← .ofOption (arguments.mapM Scalar.word?)
  if words.length = f.parameters.length then
    let (flow, _) ← f.body.exec C (.ofArguments words)
    f.finish flow
  else .unfinished

/-- The functions that every program can call. -/
def runtimeCall : String → List Scalar → Outcome (Option Scalar)
  | "print", [.text text] => .done [.text text.toUTF8.toList] none
  | "printi", [.word w] => .done [.number w] none
  | _, _ => .unfinished

def call (fs : List Routine) (overflow : Option Word) :
    Nat → String → List Scalar → Outcome (Option Scalar)
  | 0, _, _ => .unfinished
  | limit + 1, name, arguments =>
    match fs.find? (·.name == name) with
    | some f =>
      f.run { overflow := overflow, call := call fs overflow limit, limit := limit } arguments
    | none => runtimeCall name arguments

/-- What the functions are run with. -/
def setting (fs : List Routine) (overflow : Option Word) (limit : Nat) : CoreSetting :=
  { overflow := overflow, call := call fs overflow limit, limit := limit }

end Routine

end Backpatch
