/-!
# JSON values

A JSON value as its text gives it. Three things are kept that a plain tree of values would lose:
an object keeps its fields in order and with repetitions, a number that is not a plain sequence of
digits keeps its spelling, and a string whose escapes leave a surrogate without its partner keeps
no text at all. Such a string is still JSON, and may stand in a value that nobody reads.
-/

namespace Backpatch

namespace Json

/-- The text of a JSON string, or `none` if an escape in it is a surrogate without a partner. -/
abbrev Text := Option String

end Json

inductive Json
  | null
  | bool (value : Bool)
  | nat (value : Nat)
  | number (spelling : String)
  | string (text : Json.Text)
  | array (items : List Json)
  | object (fields : List (Json.Text × Json))
  deriving Inhabited

end Backpatch
