import Backpatch.Command.Path
import Backpatch.Command.Run

/-!
# A directory in memory

A working directory whose files are texts, with a standard input beside it. A directory exists if
it holds a file, if it is the working directory or above it, or if every system has it. A path is
followed name by name, and each name but the last has to lead to a directory. A few devices have
their usual paths.
-/

namespace Backpatch.Command

/-- What a device reads from and writes to. -/
inductive Device
  | null
  | standardInput
  | standardOutput
  | standardError
  deriving DecidableEq, Repr

def devices : List (Position × Device) :=
  [([Position.root, "dev", "null"], .null),
   ([Position.root, "dev", "stdin"], .standardInput),
   ([Position.root, "dev", "stdout"], .standardOutput),
   ([Position.root, "dev", "stderr"], .standardError)]

/-- Directories in the root of every system. -/
def systemDirectories : List String :=
  ["bin", "dev", "etc", "home", "lib", "opt", "proc", "root", "run", "sbin", "sys", "tmp", "usr",
   "var"]

structure Directory where
  files : List (Position × String) := []
  /-- What is left to read of the standard input. -/
  input : ByteArray := .empty
  /-- What was written to the standard output through its device. -/
  output : String := ""

/-- What stands at a position. -/
inductive Entry
  | directory
  | file (text : String)
  | device (device : Device)
  deriving DecidableEq, Repr

namespace Directory

/-- Puts a text into a file, which is made unless it is there. -/
def put (d : Directory) (position : Position) (text : String) : Directory :=
  { d with files := (position, text) :: d.files.filter fun (other, _) => other ≠ position }

/-- A directory with the given files, known by their paths. -/
def ofFiles (files : List (String × String)) (input : ByteArray) : Directory :=
  files.foldl (fun d (path, text) => d.put (Path.ofString path).position text) { input := input }

def isDirectory (d : Directory) (position : Position) : Bool :=
  position.isAbove || position == [Position.root]
    || systemDirectories.any (fun name => position == [Position.root, name])
    || d.files.any fun (other, _) => position.isPrefixOf other && position != other

def entry? (d : Directory) (position : Position) : Option Entry :=
  match d.files.lookup position, devices.lookup position with
  | some text, _ => some (.file text)
  | none, some device => some (.device device)
  | none, none => if d.isDirectory position then some .directory else none

def requireDirectory (d : Directory) (position : Position) : Except FileError Unit :=
  match d.entry? position with
  | some .directory => .ok ()
  | some _ => .error .notDirectory
  | none => .error .notFound

/-- Follows names from a position on. What the last of them leads to may be anything, or be
missing. -/
def follow (d : Directory) (position : Position) : List String → Except FileError Position
  | [] => .ok position
  | name :: names => do
    d.requireDirectory position
    if Path.maxNameBytes < name.utf8ByteSize then .error .nameTooLong
    else d.follow (position.next name) names

/-- Reads the standard input, of which nothing is left then. -/
def readInput (d : Directory) : Except FileError (String × Directory) :=
  match String.fromUTF8? d.input with
  | some text => .ok (text, { d with input := .empty })
  | none => .error .notText

def readEntry (d : Directory) : Entry → Except FileError (String × Directory)
  | .directory => .error .isDirectory
  | .file text => .ok (text, d)
  | .device .standardInput => d.readInput
  | .device _ => .ok ("", d)

def read (d : Directory) (path : String) : Except FileError (String × Directory) := do
  let path ← Path.parse path
  let position ← d.follow path.start path.names
  if path.endsInSlash then d.requireDirectory position
  match d.entry? position with
  | some entry => d.readEntry entry
  | none => .error .notFound

def writeDevice (d : Directory) (text : String) : Device → Directory
  | .standardOutput => { d with output := d.output ++ text }
  | _ => d

/-- Writes a file, which is made unless it is there; the directory around it has to be there. -/
def write (d : Directory) (path text : String) : Except FileError Directory := do
  let path ← Path.parse path
  d.requireDirectory (← d.follow path.start path.names.dropLast)
  if path.endsInSlash then .error .isDirectory
  else
    let position ← d.follow path.start path.names
    match d.entry? position with
    | some .directory => .error .isDirectory
    | some (.device device) => .ok (d.writeDevice text device)
    | _ => .ok (d.put position text)

/-- Keeps what a reading step leaves, if it succeeds. -/
def reading (step : Directory → Except FileError (String × Directory)) :
    StateM Directory (Except FileError String) := do
  match step (← get) with
  | .ok (text, d) =>
    set d
    return .ok text
  | .error e => return .error e

/-- The host that works on a directory in memory. -/
def host : Host (StateM Directory) where
  readFile path := reading (·.read path)
  readInput := reading readInput
  writeFile path text := do
    match (← get).write path text with
    | .ok d =>
      set d
      return .ok ()
    | .error e => return .error e

end Directory

end Backpatch.Command
