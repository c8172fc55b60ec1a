/-!
# Names in the generated code

Registers, labels and global constants. Generated names are numbered, and each kind of name has
a counter of its own, so a name is never handed out twice. Code that is written by hand may use
names of any form (`named`).
-/

namespace Backpatch

inductive Register
  /-- A numbered register. -/
  | temp (index : Nat)
  /-- The value that a parameter has on entry. -/
  | argument (index : Nat)
  /-- The stack array that holds all local variables of a function. -/
  | frame
  | named (text : String)
  deriving DecidableEq, Repr, Inhabited

def Register.text : Register → String
  | temp index => "%t" ++ toString index
  | argument index => "%" ++ toString index
  | frame => "%frame"
  | named text => text

inductive Label
  | numbered (index : Nat)
  | named (text : String)
  deriving DecidableEq, Repr, Inhabited

def Label.text : Label → String
  | numbered index => "L" ++ toString index
  | named text => text

inductive GlobalName
  | string (index : Nat)
  | named (text : String)
  deriving DecidableEq, Repr, Inhabited

def GlobalName.text : GlobalName → String
  | string index => "@.str" ++ toString index
  | named text => "@" ++ text

/-- The numbers that the next register, label and global constant will have. -/
structure NameSupply where
  registers : Nat := 0
  labels : Nat := 0
  globals : Nat := 0
  deriving DecidableEq, Repr, Inhabited

namespace NameSupply

def freshRegister (s : NameSupply) : Register × NameSupply :=
  (.temp s.registers, { s with registers := s.registers + 1 })

def freshLabel (s : NameSupply) : Label × NameSupply :=
  (.numbered s.labels, { s with labels := s.labels + 1 })

def freshGlobal (s : NameSupply) : GlobalName × NameSupply :=
  (.string s.globals, { s with globals := s.globals + 1 })

end NameSupply

end Backpatch
