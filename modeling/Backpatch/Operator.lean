/-!
# Operators of the source language

Arithmetic and comparison, with the sign each is written with in the source.
-/

namespace Backpatch

inductive Arithmetic
  | add
  | sub
  | mul
  | div
  deriving DecidableEq, Repr, Inhabited

inductive Comparison
  | equal
  | notEqual
  | less
  | greater
  | lessEqual
  | greaterEqual
  deriving DecidableEq, Repr, Inhabited

def Arithmetic.sign : Arithmetic → String
  | add => "+"
  | sub => "-"
  | mul => "*"
  | div => "/"

def Comparison.sign : Comparison → String
  | equal => "=="
  | notEqual => "!="
  | less => "<"
  | greater => ">"
  | lessEqual => "<="
  | greaterEqual => ">="

end Backpatch
