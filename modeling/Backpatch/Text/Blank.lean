/-!
# Blank characters

The characters with the White_Space property. A text of blanks alone counts as empty.
-/

namespace Backpatch.Text

/-- The first and last code point of each range of the property. -/
def blankRanges : List (Nat × Nat) := [
  (0x9, 0xD), (0x20, 0x20), (0x85, 0x85), (0xA0, 0xA0), (0x1680, 0x1680), (0x2000, 0x200A),
  (0x2028, 0x2029), (0x202F, 0x202F), (0x205F, 0x205F), (0x3000, 0x3000)]

def isBlank (c : Char) : Bool :=
  blankRanges.any fun (first, last) => first ≤ c.toNat && c.toNat ≤ last

/-- The text has no character that is not blank. -/
def isEmpty (text : String) : Bool := text.toList.all isBlank

end Backpatch.Text
