/-!
# Patch records

A patch record names a hole in the generated code: the line, and which of its holes. Lists of them
are kept until the label for the holes is known.
-/

namespace Backpatch

/-- One of the two holes that a line can have. -/
inductive Slot
  | first
  | second
  deriving DecidableEq, Repr, Inhabited

def Slot.name : Slot → String
  | first => "First"
  | second => "Second"

structure PatchRecord where
  line : Nat
  slot : Slot
  deriving DecidableEq, Repr, Inhabited

/-- Holes that will get the same label, in the order in which they get it. -/
abbrev PatchList := List PatchRecord

end Backpatch
