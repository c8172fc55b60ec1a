import Backpatch.Command.Arguments
import Backpatch.Command.FileError
import Backpatch.Compile
import Backpatch.Program.Reader
import Backpatch.Text.Blank

/-!
# Running the command

Reads the options and the program, compiles, and writes the code. Where files and the standard
input come from is up to the host, so that the same run works on a file system and on a directory
in memory. The options are read first, then the program; nothing is written unless the compilation
succeeds.
-/

namespace Backpatch.Command

/-- The files and the standard input that a run works on. -/
structure Host (m : Type → Type) where
  readFile : String → m (Except FileError String)
  readInput : m (Except FileError String)
  writeFile : String → String → m (Except FileError Unit)

/-- How a run ends. -/
inductive Outcome
  /-- All went well, and the text goes to the standard output. -/
  | printed (text : String)
  | failed (error : CompilerError)
  | broken (fault : Fault)
  | misused
  deriving DecidableEq, Repr

def Outcome.exitCode : Outcome → UInt32
  | printed _ => 0
  | failed _ => 1
  | misused => 2
  | broken _ => 101

/-- Options from their text. -/
def readOptions (text : String) : Except CompilerError Options :=
  match Options.parse? text with
  | some options => .ok options
  | none => .error (.input "bad config: not a record of options")

/-- A program from its text, which must not be blank. -/
def readProgram (text : String) : Except CompilerError Program :=
  if Text.isEmpty text then .error (.input "empty input")
  else
    match Program.parse? text with
    | some program => .ok program
    | none => .error (.input "not a program")

def fileResult {α : Type} (result : Except FileError α) : Except CompilerError α :=
  result.mapError fun e => .io e.message

/-- Compiles the text of a program. -/
def compileText (text : String) (options : Options) : Except Outcome String :=
  match readProgram text with
  | .error e => .error (.failed e)
  | .ok program =>
    match program.compile options with
    | .ok code => .ok code
    | .error (.semantic e) => .error (.failed (.ofSemantic e))
    | .error (.internal f) => .error (.broken f)

section

variable {m : Type → Type} [Monad m]

/-- The options that a run is given. -/
def loadOptions (host : Host m) (a : Arguments) : m (Except CompilerError Options) := do
  match a.config with
  | none => return .ok {}
  | some path =>
    let text ← host.readFile path
    return do readOptions (← fileResult text)

/-- The text of the program that a run is given. -/
def loadSource (host : Host m) (a : Arguments) : m (Except CompilerError String) := do
  match a.input with
  | none => return fileResult (← host.readInput)
  | some path => return fileResult (← host.readFile path)

/-- Writes the code to where a run is told to write it. -/
def deliver (host : Host m) (a : Arguments) (code : String) : m Outcome := do
  match a.output with
  | none => return .printed code
  | some path =>
    match fileResult (← host.writeFile path code) with
    | .ok () => return .printed ""
    | .error e => return .failed e

/-- Compiles as the arguments say. -/
def compileFiles (host : Host m) (a : Arguments) : m Outcome := do
  match ← loadOptions host a with
  | .error e => return .failed e
  | .ok options =>
    let options := if a.noRuntime then { options with emitRuntime := false } else options
    match ← loadSource host a with
    | .error e => return .failed e
    | .ok text =>
      match compileText text options with
      | .error outcome => return outcome
      | .ok code => deliver host a code

/-- The line that tells the version. -/
def versionText : String := "fcc 0.1.0\n"

def helpText : String :=
  "Usage: fcc [OPTIONS] [INPUT]\n\n"
    ++ "  -o, --output <OUTPUT>  write the code to a file\n"
    ++ "      --config <PATH>    read compile options from a file\n"
    ++ "      --no-runtime       leave the runtime functions out\n"
    ++ "  -v, --verbose          tell more\n"
    ++ "  -h, --help             show this text\n"
    ++ "  -V, --version          show the version\n"

/-- Runs the command. -/
def run (host : Host m) (arguments : List String) : m Outcome :=
  match parse? arguments with
  | none => return .misused
  | some .version => return .printed versionText
  | some .help => return .printed helpText
  | some (.compile a) => compileFiles host a

end

end Backpatch.Command
