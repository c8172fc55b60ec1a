import Backpatch.Json.Basic
import Backpatch.Text.Decimal

/-!
# JSON tokens

Splits a text into tokens, one character at a time. The lexer is a machine: its state is the token
in progress and the tokens read so far, and `Lexer.step` takes it over one character. A text lexes
if the machine takes it whole and ends between two tokens.

Numbers have no leading zeros and no plus sign; a point and an exponent need digits after them.
Strings hold no raw control characters, and know the escapes of the JSON grammar only.
-/

namespace Backpatch.Json

inductive Token
  | openBrace
  | closeBrace
  | openBracket
  | closeBracket
  | colon
  | comma
  | null
  | bool (value : Bool)
  | nat (value : Nat)
  | number (spelling : String)
  | string (text : Text)
  deriving DecidableEq, Repr

/-- How far the grammar of numbers has been followed. -/
inductive NumberPart
  | minus
  | zero
  | digits
  | point
  | fraction
  | exponent
  | exponentSign
  | exponentDigits
  deriving DecidableEq, Repr

namespace NumberPart

/-- The part that the number is in after one more character, if the character can follow. -/
def next? (part : NumberPart) (c : Char) : Option NumberPart :=
  match part with
  | minus => if c = '0' then some zero else if c.isDigit then some digits else none
  | zero => if c = '.' then some point else if c = 'e' ∨ c = 'E' then some exponent else none
  | digits =>
    if c.isDigit then some digits
    else if c = '.' then some point
    else if c = 'e' ∨ c = 'E' then some exponent
    else none
  | point => if c.isDigit then some fraction else none
  | fraction =>
    if c.isDigit then some fraction
    else if c = 'e' ∨ c = 'E' then some exponent
    else none
  | exponent =>
    if c.isDigit then some exponentDigits
    else if c = '+' ∨ c = '-' then some exponentSign
    else none
  | exponentSign => if c.isDigit then some exponentDigits else none
  | exponentDigits => if c.isDigit then some exponentDigits else none

/-- A number may end in this part. -/
def isEnd : NumberPart → Bool
  | zero | digits | fraction | exponentDigits => true
  | minus | point | exponent | exponentSign => false

end NumberPart

/-- How far an escape inside a string has been read. -/
inductive Escape
  | none
  | backslash
  | hex (missing : Nat) (value : Nat)
  deriving DecidableEq, Repr

/-- A string in progress: its characters so far, the last first; whether every surrogate has found
its partner; and a leading surrogate that waits for the trailing one. -/
structure StringPart where
  chars : List Char := []
  paired : Bool := true
  leading : Option Nat := none
  escape : Escape := .none
  deriving DecidableEq, Repr

namespace StringPart

/-- Takes a character. A surrogate that waits for its partner waits in vain. -/
def push (s : StringPart) (c : Char) : StringPart :=
  { chars := c :: s.chars, paired := s.paired && s.leading.isNone }

/-- Takes the number of a `\u` escape: a character of its own, or one half of a surrogate pair. -/
def pushUnit (s : StringPart) (unit : Nat) : StringPart :=
  match s.leading with
  | some leading =>
    if 0xDC00 ≤ unit ∧ unit ≤ 0xDFFF then
      { s with
        chars := Char.ofNat (0x10000 + (leading - 0xD800) * 0x400 + (unit - 0xDC00)) :: s.chars
        leading := none
        escape := .none }
    else { s with paired := false, leading := none, escape := .none }
  | none =>
    if 0xD800 ≤ unit ∧ unit ≤ 0xDBFF then { s with leading := some unit, escape := .none }
    else if 0xDC00 ≤ unit ∧ unit ≤ 0xDFFF then { s with paired := false, escape := .none }
    else s.push (Char.ofNat unit)

/-- The text of the finished string. -/
def text (s : StringPart) : Text :=
  if s.paired && s.leading.isNone then some (String.ofList s.chars.reverse) else none

end StringPart

/-- The value of a hexadecimal digit. -/
def hexValue? (c : Char) : Option Nat :=
  if c.isDigit then some (c.toNat - '0'.toNat)
  else if 'a' ≤ c ∧ c ≤ 'f' then some (c.toNat - 'a'.toNat + 10)
  else if 'A' ≤ c ∧ c ≤ 'F' then some (c.toNat - 'A'.toNat + 10)
  else none

/-- The character that a backslash and this letter stand for. -/
def escaped? (c : Char) : Option Char :=
  match c with
  | '"' => some '"'
  | '\\' => some '\\'
  | '/' => some '/'
  | 'b' => some '\x08'
  | 'f' => some '\x0c'
  | 'n' => some '\n'
  | 'r' => some '\r'
  | 't' => some '\t'
  | _ => none

/-- The token in progress. -/
inductive Mode
  | gap
  | word (missing : List Char) (token : Token)
  | number (part : NumberPart) (spelling : List Char)
  | string (content : StringPart)
  deriving DecidableEq, Repr

/-- The lexer's state: the token in progress and the tokens read, the last first. -/
structure Lexer where
  mode : Mode := .gap
  tokens : List Token := []
  deriving DecidableEq, Repr

namespace Lexer

def push (l : Lexer) (token : Token) : Lexer := { tokens := token :: l.tokens }

def enter (l : Lexer) (mode : Mode) : Lexer := { l with mode := mode }

/-- Closes the number in progress. One that is a sequence of digits is read as its value. -/
def closeNumber (l : Lexer) (spelling : List Char) : Lexer :=
  let digits := spelling.reverse
  if Decimal.isDigits digits then l.push (.nat (Decimal.value digits))
  else l.push (.number (String.ofList digits))

/-- A character between two tokens: a blank, a token by itself, or the start of one. -/
def stepGap (l : Lexer) (c : Char) : Option Lexer :=
  match c with
  | ' ' | '\t' | '\n' | '\r' => some (l.enter .gap)
  | '\x7b' => some (l.push .openBrace)
  | '\x7d' => some (l.push .closeBrace)
  | '[' => some (l.push .openBracket)
  | ']' => some (l.push .closeBracket)
  | ':' => some (l.push .colon)
  | ',' => some (l.push .comma)
  | '"' => some (l.enter (.string {}))
  | 'n' => some (l.enter (.word ['u', 'l', 'l'] .null))
  | 't' => some (l.enter (.word ['r', 'u', 'e'] (.bool true)))
  | 'f' => some (l.enter (.word ['a', 'l', 's', 'e'] (.bool false)))
  | '-' => some (l.enter (.number .minus ['-']))
  | '0' => some (l.enter (.number .zero ['0']))
  | _ => if c.isDigit then some (l.enter (.number .digits [c])) else none

/-- A character inside a string. -/
def stepString (l : Lexer) (s : StringPart) (c : Char) : Option Lexer :=
  match s.escape with
  | .none =>
    if c = '"' then some (l.push (.string s.text))
    else if c = '\\' then some (l.enter (.string { s with escape := .backslash }))
    else if c.toNat < 0x20 then none
    else some (l.enter (.string (s.push c)))
  | .backslash =>
    if c = 'u' then some (l.enter (.string { s with escape := .hex 3 0 }))
    else (escaped? c).map fun e => l.enter (.string (s.push e))
  | .hex missing value =>
    (hexValue? c).map fun digit =>
      let value := 16 * value + digit
      match missing with
      | 0 => l.enter (.string (s.pushUnit value))
      | missing + 1 => l.enter (.string { s with escape := .hex missing value })

/-- Takes one character. -/
def step (l : Lexer) (c : Char) : Option Lexer :=
  match l.mode with
  | .gap => l.stepGap c
  | .word [] token => (l.push token).stepGap c
  | .word [last] token => if c = last then some (l.push token) else none
  | .word (next :: missing) token => if c = next then some (l.enter (.word missing token)) else none
  | .number part spelling =>
    match part.next? c with
    | some part => some (l.enter (.number part (c :: spelling)))
    | none => if part.isEnd then (l.closeNumber spelling).stepGap c else none
  | .string s => l.stepString s c

/-- The tokens read, if the text may end here. -/
def finish (l : Lexer) : Option (List Token) :=
  match l.mode with
  | .gap => some l.tokens.reverse
  | .number part spelling =>
    if part.isEnd then some (l.closeNumber spelling).tokens.reverse else none
  | _ => none

end Lexer

/-- The tokens of a text. -/
def tokens? (text : List Char) : Option (List Token) :=
  (text.foldlM Lexer.step {}).bind Lexer.finish

end Backpatch.Json
