import Backpatch.Code.Name
import Backpatch.Diagnostic

/-!
# Symbols and scopes

A table of what names stand for: a stack of lexical scopes above the global one. A scope knows its
symbols in the order of their declaration, finds them by an index of their names, and declares a
name at most once. Variables are numbered on from the enclosing scope, so that two scopes side by
side share their places in the frame; the frame is as large as the largest number of variables
alive at once since it was reset. Parameters are numbered downwards, in each scope anew.
-/

namespace Backpatch

/-- What a symbol keeps besides its name, its type and its number. -/
inductive SymbolKind
  /-- A variable, with the register that holds the address of its place. -/
  | variable (pointer : Register)
  | parameter
  | function (parameters : List Ty)
  deriving DecidableEq, Repr, Inhabited

/-- What a symbol stands for. -/
inductive Role
  /-- A variable: its place in the frame, and the register that holds the address of it. -/
  | variable (slot : Nat) (pointer : Register)
  /-- A parameter: its position in the function's signature. -/
  | parameter (index : Nat)
  | function (parameters : List Ty)
  deriving DecidableEq, Repr, Inhabited

/-- Roles without their details. -/
inductive SymbolClass
  | variable
  | parameter
  | function
  deriving DecidableEq, Repr, Inhabited

/-- A name with its type, which for a function is the type that it returns. -/
structure Symbol where
  name : String
  type : Ty
  /-- Variables count up from zero and parameters down from minus one; functions have no number. -/
  offset : Int
  kind : SymbolKind
  deriving DecidableEq, Repr, Inhabited

namespace Symbol

/-- The position of a parameter in the function's signature. -/
def parameterIndex (s : Symbol) : Option Nat :=
  match s.kind with
  | .parameter => (-s.offset - 1).toNat?
  | _ => none

def role (s : Symbol) : Role :=
  match s.kind with
  | .variable pointer => .variable s.offset.toNat pointer
  | .parameter => .parameter (s.parameterIndex.getD 0)
  | .function parameters => .function parameters

def symbolClass (s : Symbol) : SymbolClass :=
  match s.role with
  | .variable .. => .variable
  | .parameter _ => .parameter
  | .function _ => .function

end Symbol

/-- One lexical level. -/
structure Scope where
  symbols : List Symbol := []
  /-- The positions of the symbols by their names, the last one first. -/
  index : List (String × Nat) := []
  /-- The place in the frame of the next variable. -/
  nextSlot : Nat := 0
  /-- The offset of the next parameter. -/
  parameterOffset : Int := -1
  isLoop : Bool := false
  deriving DecidableEq, Repr, Inhabited

namespace Scope

def get? (s : Scope) (name : String) : Option Symbol := (s.index.lookup name).bind (s.symbols[·]?)

def contains (s : Scope) (name : String) : Bool := (s.index.lookup name).isSome

def insert (s : Scope) (symbol : Symbol) : Scope :=
  { s with
    symbols := s.symbols ++ [symbol]
    index := (symbol.name, s.symbols.length) :: s.index }

end Scope

structure SymbolTable where
  /-- The open scopes from the innermost to the global one. -/
  scopes : List Scope := [{}]
  /-- The largest number of variables alive at once since the frame was reset. -/
  frameSize : Nat := 0
  deriving DecidableEq, Repr, Inhabited

namespace SymbolTable

/-- The innermost scope. -/
def current (t : SymbolTable) : Scope := t.scopes.headD {}

/-- The scope that is never closed. -/
def global (t : SymbolTable) : Scope := t.scopes.getLastD {}

def modifyCurrent (t : SymbolTable) (f : Scope → Scope) : SymbolTable :=
  { t with scopes := f t.current :: t.scopes.tail }

/-- How many scopes are open inside the global one. -/
def depth (t : SymbolTable) : Nat := t.scopes.length - 1

def openScope (t : SymbolTable) (isLoop : Bool) : SymbolTable :=
  { t with scopes := { nextSlot := t.current.nextSlot, isLoop := isLoop } :: t.scopes }

/-- Closes the innermost scope, unless it is the global one. -/
def closeScope (t : SymbolTable) : SymbolTable :=
  if 1 < t.scopes.length then { t with scopes := t.scopes.tail } else t

def inLoop (t : SymbolTable) : Bool := t.scopes.any Scope.isLoop

def resetFrame (t : SymbolTable) : SymbolTable := { t with frameSize := 0 }

/-- The innermost symbol of this name. -/
def get? (t : SymbolTable) (name : String) : Option Symbol := t.scopes.findSome? (·.get? name)

/-- The innermost symbol of this name and class; symbols of other classes do not hide it. -/
def getOf? (t : SymbolTable) (name : String) (symbolClass : SymbolClass) : Option Symbol :=
  (t.scopes.filterMap (·.get? name)).find? (·.symbolClass == symbolClass)

/-- The innermost scope does not declare the name yet. -/
def checkFree (t : SymbolTable) (name : String) (location : Location) :
    Except SemanticError Unit :=
  if t.current.contains name then .error (.redefinition name location) else .ok ()

/-- Declares a variable. The result is its place in the frame. -/
def addVariable (t : SymbolTable) (name : String) (type : Ty) (pointer : Register)
    (location : Location) : Except SemanticError (Nat × SymbolTable) := do
  t.checkFree name location
  let slot := t.current.nextSlot
  let declared := t.modifyCurrent fun scope =>
    { scope.insert ⟨name, type, slot, .variable pointer⟩ with nextSlot := slot + 1 }
  return (slot, { declared with frameSize := max t.frameSize (slot + 1) })

/-- Declares the next parameter. The result is its position. -/
def addParameter (t : SymbolTable) (name : String) (type : Ty) (location : Location) :
    Except SemanticError (Nat × SymbolTable) := do
  t.checkFree name location
  let offset := t.current.parameterOffset
  let symbol : Symbol := ⟨name, type, offset, .parameter⟩
  return (symbol.parameterIndex.getD 0, t.modifyCurrent fun scope =>
    { scope.insert symbol with parameterOffset := offset - 1 })

def addFunction (t : SymbolTable) (name : String) (type : Ty) (parameters : List Ty)
    (location : Location) : Except SemanticError SymbolTable := do
  t.checkFree name location
  return t.modifyCurrent (·.insert ⟨name, type, 0, .function parameters⟩)

end SymbolTable

end Backpatch
