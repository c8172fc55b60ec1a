import Backpatch.Code.Instr
import Backpatch.Fault

/-!
# The code buffer

The lines written so far, each with its level of indentation, and the globals above them. A branch
may be written before its target is known: the line then has holes, and `backpatch` puts a label
into them later. A hole is *open* until then, and is filled only once. The text can be rendered
when no hole is open.

The width of one level of indentation is known to the buffer only for the rendering; what is
written does not depend on it.
-/

namespace Backpatch

structure Line where
  level : Nat
  instr : Instr
  deriving DecidableEq, Repr, Inhabited

/-- The line behind its indentation. -/
def Line.text (line : Line) (indentWidth : Nat) : String :=
  String.ofList (List.replicate (line.level * indentWidth) ' ') ++ line.instr.text

structure CodeBuffer where
  indentWidth : Nat
  level : Nat := 0
  lines : Array Line := #[]
  globals : Array Global := #[]
  deriving DecidableEq, Repr, Inhabited

namespace CodeBuffer

/-- Adds a line at the present level of indentation. -/
def push (b : CodeBuffer) (i : Instr) : CodeBuffer :=
  { b with lines := b.lines.push { level := b.level, instr := i } }

/-- Adds a line without holes. -/
def emit (b : CodeBuffer) (i : Instr) : Except Fault CodeBuffer :=
  if i.placeholders = 0 then .ok (b.push i) else .error (.strayPlaceholder i.text)

/-- Adds a line with one or two holes. The result names them from left to right. -/
def emitOpen (b : CodeBuffer) (i : Instr) : Except Fault (PatchList × CodeBuffer) :=
  if i.placeholders = 1 ∨ i.placeholders = 2 then
    .ok (i.openSlots.map fun slot => ⟨b.lines.size, slot⟩, b.push i)
  else .error (.placeholderCount b.lines.size i.placeholders i.text)

/-- Adds a jump to a place that is not known yet. -/
def jump (b : CodeBuffer) : PatchRecord × CodeBuffer :=
  (⟨b.lines.size, .first⟩, b.push (.jump none))

/-- Adds a branch to two places that are not known yet: where the condition is true, and where it
is false. -/
def branch (b : CodeBuffer) (condition : Register) :
    Except Fault ((PatchRecord × PatchRecord) × CodeBuffer) :=
  let i : Instr := .branch condition none none
  if i.placeholders = 2 then
    .ok ((⟨b.lines.size, .first⟩, ⟨b.lines.size, .second⟩), b.push i)
  else .error (.placeholderCount b.lines.size i.placeholders i.text)

/-- Adds a label, which is never indented. -/
def emitLabel (b : CodeBuffer) (label : Label) : CodeBuffer :=
  { b with lines := b.lines.push { level := 0, instr := .label label } }

def emitGlobal (b : CodeBuffer) (g : Global) : CodeBuffer :=
  { b with globals := b.globals.push g }

def increaseIndent (b : CodeBuffer) : CodeBuffer := { b with level := b.level + 1 }

def decreaseIndent (b : CodeBuffer) : CodeBuffer := { b with level := b.level - 1 }

/-- The record names a hole that has no label yet. -/
def isOpen (b : CodeBuffer) (r : PatchRecord) : Bool :=
  (b.lines[r.line]?).any fun line => line.instr.isOpen r.slot

/-- Puts a label into one hole. -/
def fill (b : CodeBuffer) (r : PatchRecord) (label : Label) : CodeBuffer :=
  { b with lines :=
      b.lines.modify r.line fun line => { line with instr := line.instr.fill r.slot label } }

/-- Puts a label into each of the holes, all of which have to be open. -/
def backpatch (b : CodeBuffer) (records : PatchList) (label : Label) : Except Fault CodeBuffer :=
  records.foldlM (fun b r => if b.isOpen r then .ok (b.fill r label) else .error (.slotNotOpen r)) b

/-- The open holes, by line and from left to right. -/
def openRecords (b : CodeBuffer) : PatchList :=
  b.lines.toList.zipIdx.flatMap fun (line, index) =>
    line.instr.openSlots.map fun slot => ⟨index, slot⟩

/-- The lines as they will be rendered. -/
def lineTexts (b : CodeBuffer) : List String := b.lines.toList.map (·.text b.indentWidth)

def globalTexts (b : CodeBuffer) : List String := b.globals.toList.map Global.text

/-- Lines, each with its end. -/
def joinLines (lines : List String) : String := String.join (lines.map (· ++ "\n"))

/-- The globals, a blank line if there are any, and the lines. -/
def text (b : CodeBuffer) : String :=
  joinLines (b.globalTexts ++ (if b.globals.isEmpty then [] else [""]) ++ b.lineTexts)

/-- The text of the finished code. -/
def render (b : CodeBuffer) : Except Fault String :=
  if b.openRecords.isEmpty then .ok b.text
  else .error (.unresolved (b.openRecords.map PatchRecord.line))

end CodeBuffer

end Backpatch
