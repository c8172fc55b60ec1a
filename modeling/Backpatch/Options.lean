import Backpatch.Json.Printer
import Backpatch.Json.Reader
import Backpatch.Json.Shape

/-!
# Compile options

Whether the output defines the runtime functions or only declares them, and how many spaces one
level of indentation takes.
-/

namespace Backpatch

open Json (below? bool? orDefault)

structure Options where
  emitRuntime : Bool := true
  indentWidth : UInt64 := 4
  deriving DecidableEq, Repr, Inhabited

namespace Options

def ofJson? : Nat → Json → Option Options
  | 0, _ => none
  | _ + 1, json =>
    match json.record?
        [{ name := "emit_runtime", hasDefault := true },
         { name := "indent_width", hasDefault := true }] with
    | some [emitRuntime, indentWidth] => do
      let emitRuntime ← orDefault true bool? emitRuntime
      let indentWidth ← orDefault 4 (below? 18446744073709551616) indentWidth
      return { emitRuntime := emitRuntime, indentWidth := UInt64.ofNat indentWidth }
    | _ => none

/-- The options that a text spells. -/
def parse? (text : String) : Option Options :=
  (Json.parse? text).bind (ofJson? Json.maxDepth)

def toJson (options : Options) : Json :=
  Json.ofFields [("emit_runtime", .bool options.emitRuntime),
    ("indent_width", .nat options.indentWidth.toNat)]

/-- The text of options. -/
def render (options : Options) : String := options.toJson.render

end Options

end Backpatch
