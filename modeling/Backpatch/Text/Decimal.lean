/-!
# Decimal digits

Unsigned numbers written with the digits `0` to `9`. Leading zeros are allowed here; a format that
forbids them says so itself.
-/

namespace Backpatch.Decimal

/-- At least one character, and all of them digits. -/
def isDigits (text : List Char) : Bool := !text.isEmpty && text.all Char.isDigit

/-- The number that a sequence of digits stands for. -/
def value (digits : List Char) : Nat :=
  digits.foldl (fun n c => 10 * n + (c.toNat - '0'.toNat)) 0

end Backpatch.Decimal
