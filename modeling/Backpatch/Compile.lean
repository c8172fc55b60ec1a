import Backpatch.Code.Function
import Backpatch.Options
import Backpatch.Tree.OfProgram

/-!
# Compilation

From a program to the text of its code: the program is checked, the prelude and the code of its
functions are written to a buffer, and the buffer is rendered.
-/

namespace Backpatch

/-- What the parts of a compilation share: the names given out, the symbols declared, and the code
written. -/
structure Context where
  names : NameSupply := {}
  symbols : SymbolTable := {}
  buffer : CodeBuffer

namespace Context

def start (options : Options) : Context :=
  { buffer := { indentWidth := options.indentWidth.toNat } }

/-- A builder for a new tree, which goes on with the names and symbols of the context. -/
def builder (c : Context) : Except Fault Builder := Builder.start c.names c.symbols

/-- The context after a tree has been built. -/
def afterBuilder (c : Context) (b : Builder) : Context :=
  { c with names := b.names, symbols := b.symbols }

/-- Writes the runtime functions, or only their declarations. -/
def emitPrelude (c : Context) (emitRuntime : Bool) : Context :=
  { c with buffer :=
      if emitRuntime then c.buffer.emitRuntime else c.buffer.emitRuntimeDeclarations }

/-- Runs a step of the emission. -/
def emit {α : Type} (c : Context) (exits : ExitTable) (step : EmitM α) :
    Except Fault (α × ExitTable × Context) := do
  let (a, s) ← step.run { names := c.names, buffer := c.buffer, exits := exits }
  return (a, s.exits, { c with names := s.names, buffer := s.buffer })

end Context

/-- Checks a program and builds its tree. -/
def Program.analyze (p : Program) (c : Context) :
    Except Fault (Except SemanticError SyntaxTree × Context) := do
  let b ← c.builder
  let (result, b) ← Builder.run p.build b
  return (result.map fun root => { forest := b.forest, root := some root }, c.afterBuilder b)

/-- Why there is no code: the program is wrong, or the compiler is. -/
inductive Failure
  | semantic (error : SemanticError)
  | internal (fault : Fault)
  deriving DecidableEq, Repr

/-- Writes the prelude and the code of a checked tree. The result has the exits of its nodes that
are left open. -/
def SyntaxTree.generate (tree : SyntaxTree) (c : Context) (emitRuntime : Bool) :
    Except Fault (ExitTable × Context) := do
  let (_, exits, c) ← (c.emitPrelude emitRuntime).emit {} (Emission.emitProgram tree.root)
  return (exits, c)

/-- The code of a program. -/
def Program.emit (p : Program) (options : Options) : Except Failure CodeBuffer :=
  match p.analyze (.start options) with
  | .error f => .error (.internal f)
  | .ok (.error e, _) => .error (.semantic e)
  | .ok (.ok tree, c) =>
    ((tree.generate c options.emitRuntime).map fun (_, c) => c.buffer).mapError .internal

/-- Compiles a program. -/
def Program.compile (p : Program) (options : Options) : Except Failure String := do
  let buffer ← p.emit options
  buffer.render.mapError .internal

end Backpatch
