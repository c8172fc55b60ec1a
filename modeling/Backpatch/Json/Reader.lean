import Backpatch.Json.Token

/-!
# Reading JSON values

Reads a value from its tokens, one token at a time. The state says what may follow: a value, an
item or the end of an array that was just opened, a key, a colon, or whatever the enclosing bracket
asks for after a complete value. The brackets still open are a stack, so that a value may nest as
deep as it likes.
-/

namespace Backpatch.Json

/-- A bracket that is open around the value being read, with what it holds already, the last
first. -/
inductive Enclosing
  | array (items : List Json)
  | object (fields : List (Text × Json)) (key : Text)

/-- What has been read of a value. -/
inductive Reader
  /-- A value follows. -/
  | value (stack : List Enclosing)
  /-- An array was opened: a value follows, or its end. -/
  | firstItem (stack : List Enclosing)
  /-- An object was opened: a key follows, or its end. -/
  | firstKey (stack : List Enclosing)
  /-- A key follows. -/
  | key (fields : List (Text × Json)) (stack : List Enclosing)
  /-- The colon after a key follows. -/
  | colon (fields : List (Text × Json)) (key : Text) (stack : List Enclosing)
  /-- A value is complete. -/
  | complete (value : Json) (stack : List Enclosing)

namespace Reader

/-- A token where a value is due. -/
def stepValue (stack : List Enclosing) : Token → Option Reader
  | .null => some (.complete .null stack)
  | .bool b => some (.complete (.bool b) stack)
  | .nat n => some (.complete (.nat n) stack)
  | .number spelling => some (.complete (.number spelling) stack)
  | .string text => some (.complete (.string text) stack)
  | .openBracket => some (.firstItem stack)
  | .openBrace => some (.firstKey stack)
  | _ => none

/-- A token after a complete value. -/
def stepComplete (json : Json) : List Enclosing → Token → Option Reader
  | .array items :: stack, .comma => some (.value (.array (json :: items) :: stack))
  | .array items :: stack, .closeBracket =>
    some (.complete (.array (json :: items).reverse) stack)
  | .object fields name :: stack, .comma => some (.key ((name, json) :: fields) stack)
  | .object fields name :: stack, .closeBrace =>
    some (.complete (.object ((name, json) :: fields).reverse) stack)
  | _, _ => none

/-- Takes one token. -/
def step (reader : Reader) (token : Token) : Option Reader :=
  match reader with
  | .value stack => stepValue stack token
  | .firstItem stack =>
    if token = .closeBracket then some (.complete (.array []) stack)
    else stepValue (.array [] :: stack) token
  | .firstKey stack =>
    match token with
    | .closeBrace => some (.complete (.object []) stack)
    | .string name => some (.colon [] name stack)
    | _ => none
  | .key fields stack =>
    match token with
    | .string name => some (.colon fields name stack)
    | _ => none
  | .colon fields name stack =>
    match token with
    | .colon => some (.value (.object fields name :: stack))
    | _ => none
  | .complete json stack => stepComplete json stack token

/-- The value read, if no bracket is open. -/
def finish : Reader → Option Json
  | .complete json [] => some json
  | _ => none

end Reader

/-- The one value that the tokens spell. -/
def ofTokens? (tokens : List Token) : Option Json :=
  (tokens.foldlM Reader.step (.value [])).bind Reader.finish

/-- The one value that a text spells, with blanks around it or between its tokens. -/
def parse? (text : String) : Option Json :=
  (tokens? text.toList).bind ofTokens?

end Backpatch.Json
