import Backpatch.Json.Basic

/-!
# Writing JSON values

The shortest text of a value: no blanks, and an escape only where the grammar asks for one. A
string without a text is written as a single surrogate, so that it reads back as what it is.
-/

namespace Backpatch.Json

/-- A hexadecimal digit, for a number below sixteen. -/
def lowerHexDigit (n : Nat) : Char :=
  if n < 10 then Char.ofNat ('0'.toNat + n) else Char.ofNat ('a'.toNat + (n - 10))

/-- A character inside a string. -/
def printChar (c : Char) : List Char :=
  if c = '"' then ['\\', '"']
  else if c = '\\' then ['\\', '\\']
  else if c = '\n' then ['\\', 'n']
  else if c = '\r' then ['\\', 'r']
  else if c = '\t' then ['\\', 't']
  else if c.toNat < 0x20 then
    ['\\', 'u', '0', '0', lowerHexDigit (c.toNat / 16), lowerHexDigit (c.toNat % 16)]
  else [c]

def printText : Text → List Char
  | some text => '"' :: text.toList.flatMap printChar ++ ['"']
  | none => "\"\\ud800\"".toList

mutual

/-- The characters of a value. -/
def print : Json → List Char
  | .null => "null".toList
  | .bool true => "true".toList
  | .bool false => "false".toList
  | .nat n => Nat.toDigits 10 n
  | .number spelling => spelling.toList
  | .string text => printText text
  | .array [] => ['[', ']']
  | .array (item :: items) => '[' :: print item ++ printItems items ++ [']']
  | .object [] => ['\x7b', '\x7d']
  | .object ((key, value) :: fields) =>
    '\x7b' :: printText key ++ ':' :: print value ++ printFields fields ++ ['\x7d']

/-- The items after the first, each behind a comma. -/
def printItems : List Json → List Char
  | [] => []
  | item :: items => ',' :: print item ++ printItems items

/-- The fields after the first, each behind a comma. -/
def printFields : List (Text × Json) → List Char
  | [] => []
  | (key, value) :: fields => ',' :: printText key ++ ':' :: print value ++ printFields fields

end

/-- The text of a value. -/
def render (json : Json) : String := String.ofList json.print

end Backpatch.Json
