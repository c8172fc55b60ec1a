/-!
# Command-line arguments

`[INPUT] [-o|--output FILE] [--config PATH] [--no-runtime] [-v|--verbose] [-V|--version]`.

An option is given at most once, and so is the input. A value follows its option as the next
argument, or in the same one: after `=` if the option is a long one, at once or after `=` if it is
a short one. Short options may be joined, the last of them with a value. No value is empty. After
`--` all arguments are inputs; a lone `-` is one everywhere.
-/

namespace Backpatch.Command

structure Arguments where
  input : Option String := none
  output : Option String := none
  config : Option String := none
  noRuntime : Bool := false
  verbose : Bool := false
  deriving DecidableEq, Repr, Inhabited

/-- What the arguments ask for. -/
inductive Request
  | compile (arguments : Arguments)
  | version
  | help
  deriving DecidableEq, Repr

/-- An option with a value. -/
inductive ValueOption
  | output
  | config
  deriving DecidableEq, Repr

namespace Arguments

/-- Sets a value that must not be empty and must not be set already. -/
def setOnce (old : Option String) (value : String) : Option (Option String) :=
  if old.isNone ∧ value ≠ "" then some (some value) else none

def setInput (a : Arguments) (value : String) : Option Arguments := do
  return { a with input := ← setOnce a.input value }

def setValue (a : Arguments) (option : ValueOption) (value : String) : Option Arguments :=
  match option with
  | .output => do return { a with output := ← setOnce a.output value }
  | .config => do return { a with config := ← setOnce a.config value }

def setVerbose (a : Arguments) : Option Arguments :=
  if a.verbose then none else some { a with verbose := true }

def setNoRuntime (a : Arguments) : Option Arguments :=
  if a.noRuntime then none else some { a with noRuntime := true }

end Arguments

/-- What is left to do after one argument. -/
inductive Progress
  | continue (arguments : Arguments)
  | needValue (arguments : Arguments) (option : ValueOption)
  | done (request : Request)
  deriving DecidableEq, Repr

/-- A text without the equals sign at its start. -/
def dropEquals : List Char → List Char
  | '=' :: rest => rest
  | rest => rest

/-- Takes joined short options. -/
def shortOptions (a : Arguments) : List Char → Option Progress
  | [] => some (.continue a)
  | 'v' :: rest => do shortOptions (← a.setVerbose) rest
  | 'V' :: _ => some (.done .version)
  | 'h' :: _ => some (.done .help)
  | ['o'] => some (.needValue a .output)
  | 'o' :: rest => do
    return .continue (← a.setValue .output (String.ofList (dropEquals rest)))
  | _ :: _ => none

/-- Takes a long option, with the value behind its equals sign if there is one. -/
def longOption (a : Arguments) (name : String) (value : Option String) : Option Progress :=
  match name, value with
  | "output", none => some (.needValue a .output)
  | "output", some value => return .continue (← a.setValue .output value)
  | "config", none => some (.needValue a .config)
  | "config", some value => return .continue (← a.setValue .config value)
  | "no-runtime", none => return .continue (← a.setNoRuntime)
  | "verbose", none => return .continue (← a.setVerbose)
  | "version", none => some (.done .version)
  | "help", none => some (.done .help)
  | _, _ => none

/-- The name of a long option and the value behind its equals sign. -/
def splitEquals : List Char → List Char × Option (List Char)
  | [] => ([], none)
  | '=' :: rest => ([], some rest)
  | c :: rest =>
    let (name, value) := splitEquals rest
    (c :: name, value)

/-- Takes one argument before any `--`. -/
def argument (a : Arguments) (text : String) : Option Progress :=
  match text.toList with
  | '-' :: '-' :: rest =>
    let (name, value) := splitEquals rest
    longOption a (String.ofList name) (value.map String.ofList)
  | '-' :: c :: rest => shortOptions a (c :: rest)
  | _ => return .continue (← a.setInput text)

/-- The text can be the value of an option before it. -/
def isValue (text : String) : Bool :=
  match text.toList with
  | '-' :: _ :: _ => false
  | _ => true

/-- Takes the arguments after `--`. -/
def inputs (a : Arguments) : List String → Option Request
  | [] => some (.compile a)
  | text :: rest => do inputs (← a.setInput text) rest

/-- Takes arguments from the first to the last. -/
def parseFrom (a : Arguments) : List String → Option Request
  | [] => some (.compile a)
  | "--" :: rest => inputs a rest
  | text :: rest =>
    match argument a text with
    | some (.continue a) => parseFrom a rest
    | some (.done request) => some request
    | some (.needValue a option) =>
      match rest with
      | [] => none
      | value :: rest =>
        if isValue value then
          match a.setValue option value with
          | some a => parseFrom a rest
          | none => none
        else none
    | none => none

/-- What the arguments ask for, unless they are wrong. -/
def parse? (arguments : List String) : Option Request := parseFrom {} arguments

end Backpatch.Command
