import Backpatch.Json.Basic

/-!
# Shapes of JSON values

How a value of the program's own types is spelled in JSON.

A *record* is an object of named fields, in any order. Fields that the record does not know are
skipped, repeated or not, but a field that it knows occurs once. A record may also be an array of
its fields in their order, where only fields with a default may be missing, from the end.

A *bare variant* is its name, or an object that maps the name to `null`.

Readers count how many brackets they may still open, `room`, so that a record or an object costs
one. A skipped value costs nothing, however deep it is.
-/

namespace Backpatch.Json

/-- The number of brackets that may be open at once around a value that is read. -/
def maxDepth : Nat := 127

/-- A field of a record. -/
structure Field where
  name : String
  hasDefault : Bool := false

/-- The fields of a record, each with its value if it is there. -/
def record? (shape : List Field) : Json → Option (List (Option Json))
  | .array items =>
    if items.length ≤ shape.length ∧ (shape.drop items.length).all Field.hasDefault then
      some (items.map some ++ List.replicate (shape.length - items.length) none)
    else none
  | .object fields =>
    if fields.all (fun field => field.1.isSome) ∧
        shape.all (fun known => fields.countP (fun field => field.1 == some known.name) ≤ 1) then
      some (shape.map fun known => fields.lookup (some known.name))
    else none
  | _ => none

/-- The name of a bare variant. -/
def variant? : Nat → Json → Option String
  | _, .string text => text
  | _ + 1, .object [(name, .null)] => name
  | _, _ => none

/-- A field with a default, which stands if the field is missing. -/
def orDefault {α : Type} (default : α) (read : Json → Option α) : Option Json → Option α
  | none => some default
  | some json => read json

/-- A field that may be missing or `null`. -/
def optional {α : Type} (read : Json → Option α) : Option Json → Option (Option α)
  | none => some none
  | some .null => some none
  | some json => (read json).map some

def text? : Json → Option String
  | .string text => text
  | _ => none

def bool? : Json → Option Bool
  | .bool value => some value
  | _ => none

/-- An unsigned number below a bound. -/
def below? (bound : Nat) : Json → Option Nat
  | .nat n => if n < bound then some n else none
  | _ => none

/-- An array whose items are read one by one. -/
def list? {α : Type} (read : Json → Option α) : Json → Option (List α)
  | .array items => items.mapM read
  | _ => none

/-- An object with the given fields. -/
def ofFields (fields : List (String × Json)) : Json :=
  .object (fields.map fun (name, value) => (some name, value))

/-- An object with one field: a variant and what it holds. -/
def ofVariant (name : String) (payload : Json) : Json := .object [(some name, payload)]

def ofText (text : String) : Json := .string (some text)

end Backpatch.Json
