/-!
# Source locations

A location is a line and a column of 32 bits each. Messages show the line alone. The location
`0:0` stands for "nowhere in the source": it is the default of every location field, and the root
of an analyzed tree and the predeclared functions carry it.
-/

namespace Backpatch

structure Location where
  line : UInt32 := 0
  column : UInt32 := 0
  deriving DecidableEq, Repr, Inhabited

namespace Location

/-- Nowhere in the source. -/
def nowhere : Location := {}

def isNowhere (l : Location) : Bool := l == nowhere

/-- The start of a line, with the column left out. -/
def atLine (line : UInt32) : Location := { line := line }

/-- How messages show a location: by its line. -/
def display (l : Location) : String := toString l.line.toNat

end Location

end Backpatch
