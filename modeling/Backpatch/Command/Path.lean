import Backpatch.Command.FileError

/-!
# Paths

A path names a place in a tree of directories by the names on the way to it. It starts at the
working directory, or at the root if its first character is a slash. Slashes divide the names, as
many as there are; `.` stays where it is and `..` goes up. Names and whole paths have a largest
length in bytes.
-/

namespace Backpatch.Command

structure Path where
  /-- The way starts at the root. -/
  isAbsolute : Bool
  names : List String
  /-- A slash at the end asks for a directory. -/
  endsInSlash : Bool
  deriving DecidableEq, Repr, Inhabited

/-- The way to a place, without detours: the names from the working directory down to it, behind
as many `..` as it takes to leave the working directory, or behind the root. -/
abbrev Position := List String

namespace Position

/-- The name of the root, which no other directory can have. -/
def root : String := "/"

/-- The place is the working directory or above it. -/
def isAbove (position : Position) : Bool := position.all (· == "..")

/-- One directory up. Above the root there is only the root. -/
def parent (position : Position) : Position :=
  if position = [root] then [root]
  else if position.isAbove then position ++ [".."]
  else position.dropLast

def next (position : Position) (name : String) : Position :=
  if name = "." then position
  else if name = ".." then position.parent
  else position ++ [name]

end Position

namespace Path

/-- The largest number of bytes in a path. -/
def maxBytes : Nat := 4095

/-- The largest number of bytes in a name. -/
def maxNameBytes : Nat := 255

/-- The pieces of a text between its slashes. -/
def pieces : List Char → List Char × List (List Char)
  | [] => ([], [])
  | '/' :: rest =>
    let (piece, later) := pieces rest
    ([], piece :: later)
  | c :: rest =>
    let (piece, later) := pieces rest
    (c :: piece, later)

def ofString (text : String) : Path :=
  let (piece, later) := pieces text.toList
  { isAbsolute := text.toList.head? == some '/'
    names := ((piece :: later).filter (!·.isEmpty)).map String.ofList
    endsInSlash := text.toList.getLast? == some '/' }

/-- The path that a text spells, unless it is too long. -/
def parse (text : String) : Except FileError Path :=
  if maxBytes < text.utf8ByteSize then .error .nameTooLong else .ok (ofString text)

def start (path : Path) : Position := if path.isAbsolute then [Position.root] else []

/-- Where the path leads if all directories on the way exist. -/
def position (path : Path) : Position := path.names.foldl Position.next path.start

end Path

end Backpatch.Command
