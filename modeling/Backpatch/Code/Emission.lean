import Backpatch.Code.Buffer
import Backpatch.Tree.Node

/-!
# Emission of code

What the emission of code reads and changes, and the steps that it is made of. Code is appended to
the buffer. What remains to be done about a node that has been emitted is kept beside the tree, by
the node's number: the register that holds the value of an expression, and the lists of holes
through which control leaves it. Whoever uses a node takes its lists and fills them or passes them
on, so that every hole is in one list at most.
-/

namespace Backpatch

/-- How control leaves a node that has been emitted, and where its value is.

A truth value is not in a register: control leaves by `onTrue` or by `onFalse`. A statement is left
by `next`, or by `breaks` and `continues` for the loop around it. -/
structure Exits where
  place : Option Register := none
  onTrue : PatchList := []
  onFalse : PatchList := []
  next : PatchList := []
  breaks : PatchList := []
  continues : PatchList := []
  deriving DecidableEq, Repr, Inhabited

/-- What is known of a node that has not been emitted. -/
def Exits.unknown : Exits := {}

/-- What is kept about each node. -/
structure ExitTable where
  entries : Array Exits := #[]
  deriving DecidableEq, Repr, Inhabited

namespace ExitTable

def get (t : ExitTable) (id : NodeId) : Exits := t.entries.getD id .unknown

def set (t : ExitTable) (id : NodeId) (exits : Exits) : ExitTable :=
  if id < t.entries.size then ⟨t.entries.setIfInBounds id exits⟩
  else ⟨(t.entries ++ Array.replicate (id - t.entries.size) Exits.unknown).push exits⟩

@[simp] theorem get_empty (id : NodeId) : get {} id = .unknown := by
  simp [get]

theorem get_set (t : ExitTable) (id other : NodeId) (exits : Exits) :
    (t.set id exits).get other = if other = id then exits else t.get other := by
  simp only [set, get, Array.getD_eq_getD_getElem?]
  split
  · rw [Array.getElem?_setIfInBounds]
    grind
  · rw [Array.getElem?_push, Array.getElem?_append]
    grind

end ExitTable

structure Emission where
  names : NameSupply := {}
  buffer : CodeBuffer
  exits : ExitTable := {}

/-- A step of the emission. -/
abbrev EmitM := StateT Emission (Except Fault)

namespace Emission

def fault {α : Type} (f : Fault) : EmitM α := fun _ => .error f

/-- A step on the buffer. -/
def onBuffer {α : Type} (step : CodeBuffer → Except Fault (α × CodeBuffer)) : EmitM α :=
  fun ⟨names, buffer, exits⟩ => do
    let (a, buffer) ← step buffer
    return (a, ⟨names, buffer, exits⟩)

/-- Adds a line without holes. -/
def write (i : Instr) : EmitM Unit := onBuffer fun b => do return ((), ← b.emit i)

def jump : EmitM PatchRecord := onBuffer fun b => .ok b.jump

def branch (condition : Register) : EmitM (PatchRecord × PatchRecord) :=
  onBuffer fun b => b.branch condition

def backpatch (records : PatchList) (label : Label) : EmitM Unit :=
  onBuffer fun b => do return ((), ← b.backpatch records label)

def increaseIndent : EmitM Unit := onBuffer fun b => .ok ((), b.increaseIndent)

def decreaseIndent : EmitM Unit := onBuffer fun b => .ok ((), b.decreaseIndent)

def freshRegister : EmitM Register := fun ⟨names, buffer, exits⟩ =>
  let (register, names) := names.freshRegister
  .ok (register, ⟨names, buffer, exits⟩)

/-- Adds a fresh label. -/
def label : EmitM Label := fun ⟨names, buffer, exits⟩ =>
  let (label, names) := names.freshLabel
  .ok (label, ⟨names, buffer.emitLabel label, exits⟩)

/-- Adds a global constant under a fresh name. -/
def constant (length : Nat) (body : String) : EmitM GlobalName := fun ⟨names, buffer, exits⟩ =>
  let (name, names) := names.freshGlobal
  .ok (name, ⟨names, buffer.emitGlobal (.constant name length body), exits⟩)

def irType (type : Ty) : EmitM IrType :=
  match type.ir? with
  | some ir => pure ir
  | none => fault .noRepresentation

/-- Changes what is kept about a node. -/
def modifyExits (id : NodeId) (f : Exits → Exits) : EmitM Unit :=
  fun ⟨names, buffer, exits⟩ =>
    let changed := f (exits.get id)
    .ok ((), ⟨names, buffer, exits.set id changed⟩)

/-- What is kept about a node. -/
def exitsOf (id : NodeId) : EmitM Exits := fun s => .ok (s.exits.get id, s)

def setPlace (id : NodeId) (register : Register) : EmitM Unit :=
  modifyExits id fun e => { e with place := some register }

def setBranches (id : NodeId) (onTrue onFalse : PatchList) : EmitM Unit :=
  modifyExits id fun e => { e with onTrue := onTrue, onFalse := onFalse }

/-- Takes the lists of a truth value away from its node. -/
def takeBranches (id : NodeId) : EmitM (PatchList × PatchList) := do
  let exits ← exitsOf id
  setBranches id [] []
  return (exits.onTrue, exits.onFalse)

def setNext (id : NodeId) (next : PatchList) : EmitM Unit :=
  modifyExits id fun e => { e with next := next }

/-- The lists of a statement. -/
structure Leaving where
  next : PatchList := []
  breaks : PatchList := []
  continues : PatchList := []
  deriving DecidableEq, Repr, Inhabited

def setLeaving (id : NodeId) (l : Leaving) : EmitM Unit :=
  modifyExits id fun e => { e with next := l.next, breaks := l.breaks, continues := l.continues }

/-- Takes the lists of a statement away from its node. -/
def takeLeaving (id : NodeId) : EmitM Leaving := do
  let exits ← exitsOf id
  setLeaving id {}
  return { next := exits.next, breaks := exits.breaks, continues := exits.continues }

end Emission

/-- What the code of a function's body needs to know of the function. -/
structure Frame where
  size : Int
  returnType : Ty
  slots : List (Option Register)
  deriving DecidableEq, Inhabited

end Backpatch
