import Backpatch.Text.Invisible

/-!
# Quoted texts

A text between quotes, as messages show it: the quote and the backslash get a backslash, four
controls have a letter, and every other character without a glyph of its own is shown by its
number. All else stands as it is, the apostrophe included.
-/

namespace Backpatch.Text

/-- The number of a character in hexadecimal digits between braces. -/
def numbered (c : Char) : List Char :=
  ['\\', 'u', '\x7b'] ++ Nat.toDigits 16 c.toNat ++ ['\x7d']

def quotedChar (c : Char) : List Char :=
  if c = '\x00' then ['\\', '0']
  else if c = '\t' then ['\\', 't']
  else if c = '\r' then ['\\', 'r']
  else if c = '\n' then ['\\', 'n']
  else if c = '"' then ['\\', '"']
  else if c = '\\' then ['\\', '\\']
  else if isInvisible c then numbered c
  else [c]

def quoted (text : String) : String :=
  String.ofList ('"' :: text.toList.flatMap quotedChar ++ ['"'])

end Backpatch.Text
