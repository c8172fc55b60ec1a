import Backpatch.Fault
import Backpatch.Tree.Node

/-!
# The nodes made so far

Nodes are numbered from zero in the order in which they are made. Until a node becomes the child of
another it is the root of a tree of its own; it can become a child only once.
-/

namespace Backpatch

/-- For each node the number of its parent, if it has one yet. -/
structure Forest where
  parents : Array (Option NodeId) := #[]
  deriving DecidableEq, Repr, Inhabited

namespace Forest

/-- How many nodes have been made. -/
def size (f : Forest) : Nat := f.parents.size

def parent? (f : Forest) (id : NodeId) : Option NodeId := (f.parents[id]?).join

/-- Makes a node the child of another. -/
def adopt (f : Forest) (parent child : NodeId) : Except Fault Forest :=
  match f.parents[child]? with
  | some none => .ok { f with parents := f.parents.setIfInBounds child (some parent) }
  | some (some _) => .error (.alreadyAdopted child)
  | none => .error .outOfRange

/-- Makes a node with the given children. -/
def add (f : Forest) (kind : NodeKind) (location : Location) (children : List Node) :
    Except Fault (Node × Forest) := do
  let id := f.size
  let adopted ← children.foldlM (fun f child => f.adopt id child.id) f
  return (.mk id location kind children, { adopted with parents := adopted.parents.push none })

end Forest

/-- A finished tree: all nodes that were made, and the root if the program is complete. -/
structure SyntaxTree where
  forest : Forest := {}
  root : Option Node := none
  deriving Inhabited

end Backpatch
