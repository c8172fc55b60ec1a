import Backpatch.Code.Name
import Backpatch.Code.Patch
import Backpatch.Operator
import Backpatch.Ty

/-!
# Instructions of the generated code

One constructor for each shape of line that the compiler writes, and `text`, the line itself. A
branch names its targets by labels; a target that is not known yet is a hole, and shows as the
placeholder. Lines that are written by hand are `verbatim`, with holes wherever the placeholder
stands in them.
-/

namespace Backpatch

/-- Types of the generated code. All numbers and truth values are 32 bits wide. -/
inductive IrType
  | i32
  | pointer
  | void
  deriving DecidableEq, Repr, Inhabited

def IrType.text : IrType → String
  | i32 => "i32"
  | pointer => "i8*"
  | void => "void"

/-- The representation of a type, which an invalid type does not have. -/
def Ty.ir? : Ty → Option IrType
  | byte | int | bool => some .i32
  | string => some .pointer
  | void => some .void
  | invalid => none

inductive Opcode
  | add
  | sub
  | mul
  | sdiv
  | udiv
  | and
  deriving DecidableEq, Repr, Inhabited

def Opcode.text : Opcode → String
  | add => "add"
  | sub => "sub"
  | mul => "mul"
  | sdiv => "sdiv"
  | udiv => "udiv"
  | and => "and"

/-- Division follows the sign of the operands' type; the rest is the same for both. -/
def Arithmetic.opcode (operator : Arithmetic) (signed : Bool) : Opcode :=
  match operator with
  | .add => .add
  | .sub => .sub
  | .mul => .mul
  | .div => if signed then .sdiv else .udiv

inductive Predicate
  | eq
  | ne
  | sgt
  | ugt
  | sge
  | uge
  | slt
  | ult
  | sle
  | ule
  deriving DecidableEq, Repr, Inhabited

def Predicate.text : Predicate → String
  | eq => "eq"
  | ne => "ne"
  | sgt => "sgt"
  | ugt => "ugt"
  | sge => "sge"
  | uge => "uge"
  | slt => "slt"
  | ult => "ult"
  | sle => "sle"
  | ule => "ule"

/-- Comparisons by size follow the sign of the operands' type. -/
def Comparison.predicate (operator : Comparison) (signed : Bool) : Predicate :=
  match operator with
  | .equal => .eq
  | .notEqual => .ne
  | .greater => if signed then .sgt else .ugt
  | .greaterEqual => if signed then .sge else .uge
  | .less => if signed then .slt else .ult
  | .lessEqual => if signed then .sle else .ule

/-- What an instruction reads: a register, or a number written in place. -/
inductive Operand
  | register (r : Register)
  | number (n : Int)
  deriving DecidableEq, Repr, Inhabited

def Operand.text : Operand → String
  | register r => r.text
  | number n => toString n

/-- Where a branch goes, `none` while the label is not known. -/
abbrev Target := Option Label

/-- Stands for a label that is not known yet. -/
def placeholder : Char := '§'

def Target.text : Target → String
  | some label => "%" ++ label.text
  | none => placeholder.toString

inductive Instr
  /-- The head of a function. -/
  | define (result : IrType) (name : String) (parameters : List IrType)
  /-- The end of a function. -/
  | close
  | blank
  | label (name : Label)
  /-- Reserves the frame of a function. -/
  | allocaFrame (size : Int)
  /-- Reserves a place of its own for a parameter. -/
  | allocaSlot (slot : Register)
  | store (value : Operand) (pointer : Register)
  | load (result pointer : Register)
  | compute (result : Register) (opcode : Opcode) (left right : Operand)
  | compare (result : Register) (predicate : Predicate) (left right : Operand)
  | jump (target : Target)
  | branch (condition : Register) (onTrue onFalse : Target)
  | phi (result : Register) (type : IrType) (first : Operand) (firstFrom : Label)
      (second : Operand) (secondFrom : Label)
  /-- A call, with the register and type of its result unless it has none. -/
  | call (result : Option (Register × IrType)) (callee : String)
      (arguments : List (IrType × Operand))
  /-- A call whose result is dropped, of a function with any number of arguments beyond `fixed`. -/
  | callVariadic (type : IrType) (fixed : List IrType) (callee : String)
      (arguments : List (IrType × Operand))
  | ret (value : Option (IrType × Operand))
  /-- The address of a string constant. -/
  | stringAddress (result : Register) (length : Nat) (constant : GlobalName)
  /-- The address of a variable in the frame. -/
  | slotAddress (result : Register) (size offset : Int)
  /-- Any other line: a text, then holes with the text after each. -/
  | verbatim (text : String) (rest : List (Target × String))
  deriving DecidableEq, Repr, Inhabited

/-- Texts with a comma between each two. -/
def commaList (texts : List String) : String := ", ".intercalate texts

/-- The arguments of a call, each behind its type. -/
def argumentList (arguments : List (IrType × Operand)) : String :=
  commaList (arguments.map fun (type, value) => type.text ++ " " ++ value.text)

/-- The address of the element `index` of an array that stands at `base`. -/
def elementAddress (array base index : String) : String :=
  "getelementptr " ++ array ++ ", " ++ array ++ "* " ++ base ++ ", i32 0, i32 " ++ index

namespace Instr

/-- The line, without indentation. -/
def text : Instr → String
  | define result name parameters =>
    "define " ++ result.text ++ " @" ++ name ++ "(" ++ commaList (parameters.map IrType.text)
      ++ ") \x7b"
  | close => "\x7d"
  | blank => ""
  | label name => name.text ++ ":"
  | allocaFrame size => Register.frame.text ++ " = alloca [" ++ toString size ++ " x i32]"
  | allocaSlot slot => slot.text ++ " = alloca i32"
  | store value pointer => "store i32 " ++ value.text ++ ", i32* " ++ pointer.text
  | load result pointer => result.text ++ " = load i32, i32* " ++ pointer.text
  | compute result opcode left right =>
    result.text ++ " = " ++ opcode.text ++ " i32 " ++ left.text ++ ", " ++ right.text
  | compare result predicate left right =>
    result.text ++ " = icmp " ++ predicate.text ++ " i32 " ++ left.text ++ ", " ++ right.text
  | jump target => "br label " ++ target.text
  | branch condition onTrue onFalse =>
    "br i1 " ++ condition.text ++ ", label " ++ onTrue.text ++ ", label " ++ onFalse.text
  | phi result type first firstFrom second secondFrom =>
    result.text ++ " = phi " ++ type.text ++ " [" ++ first.text ++ ", %" ++ firstFrom.text
      ++ "], [" ++ second.text ++ ", %" ++ secondFrom.text ++ "]"
  | call none callee arguments => "call void @" ++ callee ++ "(" ++ argumentList arguments ++ ")"
  | call (some (result, type)) callee arguments =>
    result.text ++ " = call " ++ type.text ++ " @" ++ callee ++ "(" ++ argumentList arguments
      ++ ")"
  | callVariadic type fixed callee arguments =>
    "call " ++ type.text ++ " (" ++ commaList (fixed.map IrType.text ++ ["..."]) ++ ") @"
      ++ callee ++ "(" ++ argumentList arguments ++ ")"
  | ret none => "ret void"
  | ret (some (type, value)) => "ret " ++ type.text ++ " " ++ value.text
  | stringAddress result length constant =>
    result.text ++ " = "
      ++ elementAddress ("[" ++ toString length ++ " x i8]") constant.text "0"
  | slotAddress result size offset =>
    result.text ++ " = "
      ++ elementAddress ("[" ++ toString size ++ " x i32]") Register.frame.text (toString offset)
  | verbatim text rest =>
    rest.foldl (fun line (target, after) => line ++ target.text ++ after) text

/-- How many times the placeholder stands in the line. -/
def placeholders (i : Instr) : Nat := i.text.toList.count placeholder

/-- The target in a slot of the line, if the line has that slot. -/
def target? : Instr → Slot → Option Target
  | jump target, .first => some target
  | branch _ onTrue _, .first => some onTrue
  | branch _ _ onFalse, .second => some onFalse
  | verbatim _ ((target, _) :: _), .first => some target
  | verbatim _ [_, (target, _)], .second => some target
  | _, _ => none

/-- The line with a label in one of its slots. -/
def fill (i : Instr) (slot : Slot) (label : Label) : Instr :=
  match i, slot with
  | jump _, .first => jump (some label)
  | branch condition _ onFalse, .first => branch condition (some label) onFalse
  | branch condition onTrue _, .second => branch condition onTrue (some label)
  | verbatim text ((_, after) :: rest), .first => verbatim text ((some label, after) :: rest)
  | verbatim text [hole, (_, after)], .second => verbatim text [hole, (some label, after)]
  | i, _ => i

/-- The slot is there, and no label is in it. -/
def isOpen (i : Instr) (slot : Slot) : Bool := i.target? slot == some none

/-- The open slots, from left to right. -/
def openSlots (i : Instr) : List Slot := [Slot.first, Slot.second].filter i.isOpen

/-- The characters before the first placeholder, and those after each. -/
def pieces : List Char → List Char × List (List Char)
  | [] => ([], [])
  | c :: line =>
    let (text, rest) := pieces line
    if c = placeholder then ([], text :: rest) else (c :: text, rest)

/-- A line with a hole wherever the text has a placeholder. -/
def ofText (line : String) : Instr :=
  let (text, rest) := pieces line.toList
  verbatim (String.ofList text) (rest.map fun after => (none, String.ofList after))

end Instr

/-- A line above the functions: what is defined elsewhere, and the constants. -/
inductive Global
  | declare (result : IrType) (name : String) (parameters : List IrType) (variadic : Bool)
  | constant (name : GlobalName) (length : Nat) (body : String)
  | verbatim (text : String)
  deriving DecidableEq, Repr, Inhabited

def Global.text : Global → String
  | declare result name parameters variadic =>
    "declare " ++ result.text ++ " @" ++ name ++ "("
      ++ commaList (parameters.map IrType.text ++ if variadic then ["..."] else []) ++ ")"
  | constant name length body =>
    name.text ++ " = constant [" ++ toString length ++ " x i8] c\"" ++ body ++ "\""
  | verbatim text => text

end Backpatch
