/-!
# Bodies of string constants

A string constant holds the bytes of its text and a closing zero byte. Printable ASCII stands for
itself, apart from the quote and the backslash; every other byte is a backslash and two
hexadecimal digits in capitals.
-/

namespace Backpatch.Text

/-- A hexadecimal digit in capitals, for a number below sixteen. -/
def hexDigit (n : Nat) : Char :=
  if n < 10 then Char.ofNat ('0'.toNat + n) else Char.ofNat ('A'.toNat + (n - 10))

def escapedByte (b : UInt8) : List Char :=
  ['\\', hexDigit (b.toNat / 16), hexDigit (b.toNat % 16)]

/-- The byte may stand for itself in a constant's body. -/
def isPlainByte (b : UInt8) : Bool :=
  0x20 ≤ b && b ≤ 0x7E && b != 0x22 && b != 0x5C

def constantByte (b : UInt8) : List Char :=
  if isPlainByte b then [Char.ofNat b.toNat] else escapedByte b

/-- The bytes that a constant holds: those of the text and the closing zero. -/
def constantBytes (text : String) : List UInt8 := text.toUTF8.toList ++ [0]

/-- The body of the constant, without the quotes around it. -/
def constantBody (text : String) : String :=
  String.ofList ((constantBytes text).flatMap constantByte)

def constantLength (text : String) : Nat := (constantBytes text).length

end Backpatch.Text
