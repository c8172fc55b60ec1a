import Backpatch.Code.Buffer

/-!
# The prelude

What stands above the code of a program: either the runtime functions with the globals that they
use, or, for code that is linked with a runtime built elsewhere, their declarations. The functions
print a text, print a number, and stop the program when it divides by zero.
-/

namespace Backpatch

/-- A function that every program may call. -/
structure RuntimeFunction where
  name : String
  returnType : Ty
  parameters : List Ty

def runtimeFunctions : List RuntimeFunction :=
  [{ name := "print", returnType := .void, parameters := [.string] },
   { name := "printi", returnType := .void, parameters := [.int] }]

/-- Called by guarded divisions when the divisor is zero. -/
def zeroDivisionHandler : String := "error_zero_div"

namespace Prelude

def exitDeclaration : Global := .declare .void "exit" [.i32] false

def runtimeGlobals : List Global :=
  [.declare .i32 "printf" [.pointer] true,
   exitDeclaration,
   .constant (.named ".int_specifier") 4 "%d\\0A\\00",
   .constant (.named ".str_specifier") 4 "%s\\0A\\00",
   .constant (.named ".zero_div_message") 23 "Error division by zero\\00"]

/-- A function that prints its argument by a format. -/
def printerBody (type : IrType) (format : String) : List Instr :=
  [.stringAddress (.named "%spec_ptr") 4 (.named format),
   .callVariadic .i32 [.pointer] "printf"
     [(.pointer, .register (.named "%spec_ptr")), (type, .register (.argument 0))],
   .ret none]

def zeroDivisionBody : List Instr :=
  [.stringAddress (.named "%message") 23 (.named ".zero_div_message"),
   .call none "print" [(.pointer, .register (.named "%message"))],
   .call none "exit" [(.i32, .number 0)],
   .ret none]

/-- The runtime functions: their heads and their bodies. -/
def functions : List (Instr × List Instr) :=
  [(.define .void "printi" [.i32], printerBody .i32 ".int_specifier"),
   (.define .void "print" [.pointer], printerBody .pointer ".str_specifier"),
   (.define .void zeroDivisionHandler [], zeroDivisionBody)]

def declarations : List Global :=
  [exitDeclaration,
   .declare .void "print" [.pointer] false,
   .declare .void "printi" [.i32] false,
   .declare .void zeroDivisionHandler [] false]

end Prelude

namespace CodeBuffer

def emitGlobals (b : CodeBuffer) (globals : List Global) : CodeBuffer :=
  globals.foldl emitGlobal b

def pushAll (b : CodeBuffer) (lines : List Instr) : CodeBuffer := lines.foldl push b

/-- Defines the runtime functions. -/
def emitRuntime (b : CodeBuffer) : CodeBuffer :=
  Prelude.functions.foldl
    (fun b (head, body) =>
      (((b.push head).increaseIndent.pushAll body).decreaseIndent.push .close).push .blank)
    (b.emitGlobals Prelude.runtimeGlobals)

/-- Declares the runtime functions without defining them. -/
def emitRuntimeDeclarations (b : CodeBuffer) : CodeBuffer :=
  b.emitGlobals Prelude.declarations

end CodeBuffer

end Backpatch
