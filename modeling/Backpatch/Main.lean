import Backpatch.Command.Run

/-!
# The command

The command on the file system: `Command.run` with files, standard input, standard output and exit
code.
-/

namespace Backpatch.Command

/-- Why a file operation failed. The code of the system comes with either sign. -/
def fileError (e : IO.Error) : FileError :=
  match e with
  | .noFileOrDirectory .. => .notFound
  | .inappropriateType _ code _ => if code = 20 ∨ code = -20 then .notDirectory else .isDirectory
  | .invalidArgument _ code _ =>
    if code = 36 ∨ code = -36 then .nameTooLong else .other (toString e)
  | _ => .other (toString e)

def textOf (bytes : ByteArray) : Except FileError String :=
  match String.fromUTF8? bytes with
  | some text => .ok text
  | none => .error .notText

/-- Runs a file operation and keeps its error. -/
def attempt {α : Type} (action : IO α) : IO (Except FileError α) := do
  try
    return .ok (← action)
  catch e => return .error (fileError e)

/-- Reads a stream to its end. -/
partial def readAll (stream : IO.FS.Stream) (read : ByteArray) : IO ByteArray := do
  let chunk ← stream.read 65536
  if chunk.isEmpty then return read else readAll stream (read ++ chunk)

/-- The host that works on the file system. -/
def fileSystem : Host IO where
  readFile path := do return (← attempt (IO.FS.readBinFile path)).bind textOf
  readInput := do return (← attempt (do readAll (← IO.getStdin) .empty)).bind textOf
  writeFile path text := attempt (IO.FS.writeFile path text)

/-- Writes what there is to say about the end of a run. -/
def report : Outcome → IO Unit
  | .printed text => do
    let stdout ← IO.getStdout
    stdout.putStr text
    stdout.flush
  | .failed error => IO.eprintln error.message
  | .broken fault => IO.eprintln ("internal compiler error: " ++ fault.message)
  | .misused => IO.eprint helpText

end Backpatch.Command

def main (arguments : List String) : IO UInt32 := do
  let outcome ← Backpatch.Command.run Backpatch.Command.fileSystem arguments
  Backpatch.Command.report outcome
  return outcome.exitCode
