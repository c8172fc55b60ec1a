import Backpatch.Compile

/-!
# A program to try things on

A loop that is left by `break`, over a variable that is assigned to, with a division, a truth value
that is kept, and a call of a function that assigns to its parameter.
-/

namespace Backpatch

/-- Prints the numbers from three down to one. -/
def Program.countdown : Program :=
  let here := Location.nowhere
  let number (digits : String) : Expr := .literal here (.int digits)
  let name (name : String) : Expr := .identifier here name
  { functions :=
      [{ name := "half", returnType := "int", parameters := [{ type := "int", name := "n" }]
         body :=
           [.assignment here "n" (.arithmetic here .div (name "n") (number "2")),
            .return here (some (name "n"))] },
       { name := "main", returnType := "void"
         body :=
           [.declaration here "int" "i" (some (.call here "half" [number "7"])),
            .loop here (.literal here (.bool true))
              (.block here
                [.declaration here "bool" "done"
                   (some (.or here (.comparison here .equal (name "i") (number "0"))
                     (.comparison here .less (name "i") (number "0")))),
                 .conditional here (name "done") (.break here) none,
                 .expression here (.call here "printi" [name "i"]),
                 .assignment here "i" (.arithmetic here .sub (name "i") (number "1"))])] }] }

/-- The program is accepted. -/
def Program.accepted (p : Program) : Bool :=
  match p.analyze (.start {}) with
  | .ok (.ok _, _) => true
  | _ => false

theorem Program.exists_of_accepted {p : Program} (h : p.accepted = true) :
    ∃ tree c, p.analyze (.start {}) = .ok (.ok tree, c) := by
  unfold Program.accepted at h
  split at h
  · exact ⟨_, _, ‹_›⟩
  · cases h

/-- The program is accepted, and a function of its tree has a node that passes the check. -/
def Program.hasPart (p : Program) (check : Node → Bool) : Bool :=
  match p.analyze (.start {}) with
  | .ok (.ok tree, _) => tree.root.any fun root =>
      root.children.any fun f => (Node.postorderAll f.children).any check
  | _ => false

theorem Program.exists_of_hasPart {p : Program} {check : Node → Bool} (h : p.hasPart check = true) :
    ∃ tree c root f n, p.analyze (.start {}) = .ok (.ok tree, c) ∧ tree.root = some root ∧
      f ∈ root.children ∧ n ∈ Node.postorderAll f.children ∧ check n = true := by
  unfold Program.hasPart at h
  split at h
  · rename_i tree c analyzed
    obtain ⟨root, hroot, h⟩ := (Option.any_eq_true _ _).mp h
    obtain ⟨f, mem, h⟩ := List.any_eq_true.mp h
    obtain ⟨n, below, h⟩ := List.any_eq_true.mp h
    exact ⟨tree, c, root, f, n, analyzed, hroot, mem, below, h⟩
  · cases h

/-- The program is accepted, and a function of its tree has a node of the kind. -/
def Program.hasNode (p : Program) (kind : NodeKind) : Bool := p.hasPart fun n => n.kind = kind

theorem Program.exists_of_hasNode {p : Program} {kind : NodeKind} (h : p.hasNode kind = true) :
    ∃ tree c root f n, p.analyze (.start {}) = .ok (.ok tree, c) ∧ tree.root = some root ∧
      f ∈ root.children ∧ n ∈ Node.postorderAll f.children ∧ n.kind = kind := by
  obtain ⟨tree, c, root, f, n, analyzed, hroot, mem, below, found⟩ := exists_of_hasPart h
  exact ⟨tree, c, root, f, n, analyzed, hroot, mem, below, of_decide_eq_true found⟩

theorem Program.countdown_accepted : ∃ tree c, countdown.analyze (.start {}) = .ok (.ok tree, c) :=
  exists_of_accepted (by decide +kernel)

end Backpatch
