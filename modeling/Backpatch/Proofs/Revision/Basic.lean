import Backpatch.Program.Basic
import Mathlib.Logic.Function.Basic

/-!
# Revised programs

A program is revised by renaming its variables and parameters and by moving all of its parts to
other locations. A part of a program is reached by a path from the whole, which says at each step
which of the parts of a part comes next; a revision may give any location to any part, whatever
locations other parts have and have had.

* `Renaming` is an injective renaming that keeps some names.
* `Program.revise` renames, and puts every part at the location that is given for its path.
* `Program.locate` is the location that a program has for a path.
-/

namespace Backpatch

/-- A part of a program, seen from the whole. -/
abbrev Path := List Nat

/-- A location for each part. -/
abbrev Positions := Path → Location

/-- The locations of what is below the part of this number. -/
def Positions.below (m : Positions) (i : Nat) : Positions := fun path => m (i :: path)

/-- An injective renaming that keeps the given names. -/
structure Renaming (kept : List String) where
  rename : String → String
  injective : Function.Injective rename
  keeps : ∀ name ∈ kept, rename name = name

/-- Nothing is renamed. -/
def Renaming.same (kept : List String) : Renaming kept :=
  ⟨id, Function.injective_id, fun _ _ => rfl⟩

/-! ## Revision -/

section Revision

variable (r : String → String)

mutual

/-- The renamed expression, whose parts stand at the given locations. -/
def Expr.revise : Expr → Positions → Expr
  | .literal _ value, m => .literal (m []) value
  | .identifier _ name, m => .identifier (m []) (r name)
  | .call _ name arguments, m => .call (m []) (r name) (Expr.reviseAll arguments 0 m)
  | .not _ operand, m => .not (m []) (operand.revise (m.below 0))
  | .and _ left right, m => .and (m []) (left.revise (m.below 0)) (right.revise (m.below 1))
  | .or _ left right, m => .or (m []) (left.revise (m.below 0)) (right.revise (m.below 1))
  | .arithmetic _ operator left right, m =>
    .arithmetic (m []) operator (left.revise (m.below 0)) (right.revise (m.below 1))
  | .comparison _ operator left right, m =>
    .comparison (m []) operator (left.revise (m.below 0)) (right.revise (m.below 1))
  | .cast _ target operand, m => .cast (m []) target (operand.revise (m.below 0))
  | .conditional _ condition thenValue elseValue, m =>
    .conditional (m []) (condition.revise (m.below 0)) (thenValue.revise (m.below 1))
      (elseValue.revise (m.below 2))

/-- The expressions are numbered from `i` on. -/
def Expr.reviseAll : List Expr → Nat → Positions → List Expr
  | [], _, _ => []
  | x :: xs, i, m => x.revise (m.below i) :: Expr.reviseAll xs (i + 1) m

end

def Expr.reviseOption (x : Option Expr) (m : Positions) : Option Expr :=
  x.map fun x => x.revise r (m.below 0)

mutual

def Stmt.revise : Stmt → Positions → Stmt
  | .declaration _ type name initializer, m =>
    .declaration (m []) type (r name) (Expr.reviseOption r initializer m)
  | .assignment _ name value, m => .assignment (m []) (r name) (value.revise r (m.below 0))
  | .expression _ value, m => .expression (m []) (value.revise r (m.below 0))
  | .conditional _ condition thenBranch elseBranch, m =>
    .conditional (m []) (condition.revise r (m.below 0)) (thenBranch.revise (m.below 1))
      (Stmt.reviseElse elseBranch m)
  | .loop _ condition body, m =>
    .loop (m []) (condition.revise r (m.below 0)) (body.revise (m.below 1))
  | .break _, m => .break (m [])
  | .continue _, m => .continue (m [])
  | .return _ value, m => .return (m []) (Expr.reviseOption r value m)
  | .block _ body, m => .block (m []) (Stmt.reviseAll body 0 m)

def Stmt.reviseElse : Option Stmt → Positions → Option Stmt
  | none, _ => none
  | some branch, m => some (branch.revise (m.below 2))

def Stmt.reviseAll : List Stmt → Nat → Positions → List Stmt
  | [], _, _ => []
  | s :: ss, i, m => s.revise (m.below i) :: Stmt.reviseAll ss (i + 1) m

end

def Parameter.reviseAll : List Parameter → Nat → Positions → List Parameter
  | [], _, _ => []
  | p :: ps, i, m =>
    { p with name := r p.name, location := m [i] } :: Parameter.reviseAll ps (i + 1) m

/-- The parameters are below the first part of a function, and its body is below the second one. The
name of the function stays. -/
def FunctionDef.revise (f : FunctionDef) (m : Positions) : FunctionDef :=
  { f with
    parameters := Parameter.reviseAll r f.parameters 0 (m.below 0)
    body := Stmt.reviseAll r f.body 0 (m.below 1)
    location := m [] }

def FunctionDef.reviseAll : List FunctionDef → Nat → Positions → List FunctionDef
  | [], _, _ => []
  | f :: fs, i, m => f.revise r (m.below i) :: FunctionDef.reviseAll fs (i + 1) m

def Program.revise (p : Program) (m : Positions) : Program :=
  ⟨FunctionDef.reviseAll r p.functions 0 m⟩

end Revision

/-! ## Locations -/

/-- The locations of a part and of the parts below it. -/
def Positions.node (l : Location) (parts : List Positions) : Positions
  | [] => l
  | i :: path => parts.getD i (fun _ => .nowhere) path

mutual

/-- The location of the part that the path leads to. -/
def Expr.locate : Expr → Positions
  | .literal l _ => .node l []
  | .identifier l _ => .node l []
  | .call l _ arguments => .node l (Expr.locateAll arguments)
  | .not l operand => .node l [operand.locate]
  | .and l left right => .node l [left.locate, right.locate]
  | .or l left right => .node l [left.locate, right.locate]
  | .arithmetic l _ left right => .node l [left.locate, right.locate]
  | .comparison l _ left right => .node l [left.locate, right.locate]
  | .cast l _ operand => .node l [operand.locate]
  | .conditional l condition thenValue elseValue =>
    .node l [condition.locate, thenValue.locate, elseValue.locate]

def Expr.locateAll : List Expr → List Positions
  | [] => []
  | x :: xs => x.locate :: Expr.locateAll xs

end

def Expr.locateOption (x : Option Expr) : List Positions := x.toList.map Expr.locate

mutual

def Stmt.locate : Stmt → Positions
  | .declaration l _ _ value => .node l (Expr.locateOption value)
  | .assignment l _ value => .node l [value.locate]
  | .expression l value => .node l [value.locate]
  | .conditional l condition thenBranch elseBranch =>
    .node l (condition.locate :: thenBranch.locate :: Stmt.locateElse elseBranch)
  | .loop l condition body => .node l [condition.locate, body.locate]
  | .break l => .node l []
  | .continue l => .node l []
  | .return l value => .node l (Expr.locateOption value)
  | .block l body => .node l (Stmt.locateAll body)

def Stmt.locateElse : Option Stmt → List Positions
  | none => []
  | some branch => [branch.locate]

def Stmt.locateAll : List Stmt → List Positions
  | [] => []
  | s :: ss => s.locate :: Stmt.locateAll ss

end

def Parameter.locate (p : Parameter) : Positions := .node p.location []

def FunctionDef.locate (f : FunctionDef) : Positions :=
  .node f.location [.node .nowhere (f.parameters.map Parameter.locate),
    .node .nowhere (Stmt.locateAll f.body)]

def Program.locate (p : Program) : Positions := .node .nowhere (p.functions.map FunctionDef.locate)

/-! ## The program as it is -/

/-- From the number `i` on, the parts have the given locations. -/
def Positions.Lists (m : Positions) (i : Nat) (parts : List Positions) : Prop :=
  ∀ j, m.below (i + j) = parts.getD j fun _ => .nowhere

theorem Positions.lists_node (l : Location) (parts : List Positions) :
    (node l parts).Lists 0 parts := by
  intro j
  rw [Nat.zero_add]
  rfl

variable {m part : Positions} {i : Nat} {parts : List Positions}

theorem Positions.Lists.head (h : m.Lists i (part :: parts)) : m.below i = part := h 0

theorem Positions.Lists.tail (h : m.Lists i (part :: parts)) : m.Lists (i + 1) parts := by
  intro j
  rw [Nat.add_assoc, Nat.add_comm 1 j]
  exact h (j + 1)

mutual

theorem Expr.revise_locate : ∀ x : Expr, x.revise id x.locate = x
  | .literal l value => rfl
  | .identifier l name => rfl
  | .call l name arguments =>
    congrArg (Expr.call l name) (Expr.reviseAll_locate arguments 0 _ (Positions.lists_node l _))
  | .not l operand => congrArg (Expr.not l) operand.revise_locate
  | .and l left right => congrArg₂ (Expr.and l) left.revise_locate right.revise_locate
  | .or l left right => congrArg₂ (Expr.or l) left.revise_locate right.revise_locate
  | .arithmetic l operator left right =>
    congrArg₂ (Expr.arithmetic l operator) left.revise_locate right.revise_locate
  | .comparison l operator left right =>
    congrArg₂ (Expr.comparison l operator) left.revise_locate right.revise_locate
  | .cast l target operand => congrArg (Expr.cast l target) operand.revise_locate
  | .conditional l condition thenValue elseValue => by
    show Expr.conditional l (condition.revise id condition.locate)
      (thenValue.revise id thenValue.locate) (elseValue.revise id elseValue.locate) = _
    rw [condition.revise_locate, thenValue.revise_locate, elseValue.revise_locate]

theorem Expr.reviseAll_locate : ∀ (xs : List Expr) (i : Nat) (m : Positions),
    m.Lists i (Expr.locateAll xs) → Expr.reviseAll id xs i m = xs
  | [], _, _, _ => rfl
  | x :: xs, i, m, h => by
    unfold Expr.locateAll at h
    rw [Expr.reviseAll, h.head, x.revise_locate, Expr.reviseAll_locate xs (i + 1) m h.tail]

end

theorem Expr.reviseOption_locate (x : Option Expr) (l : Location) :
    Expr.reviseOption id x (.node l (Expr.locateOption x)) = x := by
  cases x with
  | none => rfl
  | some x => exact congrArg some x.revise_locate

mutual

theorem Stmt.revise_locate : ∀ s : Stmt, s.revise id s.locate = s
  | .declaration l type name value =>
    congrArg (Stmt.declaration l type name) (Expr.reviseOption_locate value l)
  | .assignment l name value => congrArg (Stmt.assignment l name) value.revise_locate
  | .expression l value => congrArg (Stmt.expression l) value.revise_locate
  | .conditional l condition thenBranch elseBranch => by
    have kept := Stmt.reviseElse_locate elseBranch
      (Stmt.locate (.conditional l condition thenBranch elseBranch))
      (Positions.lists_node l _).tail.tail
    show Stmt.conditional l (condition.revise id condition.locate)
      (thenBranch.revise id thenBranch.locate) _ = _
    rw [condition.revise_locate, thenBranch.revise_locate]
    exact congrArg _ kept
  | .loop l condition body => congrArg₂ (Stmt.loop l) condition.revise_locate body.revise_locate
  | .break l => rfl
  | .continue l => rfl
  | .return l value => congrArg (Stmt.return l) (Expr.reviseOption_locate value l)
  | .block l body =>
    congrArg (Stmt.block l) (Stmt.reviseAll_locate body 0 _ (Positions.lists_node l _))

theorem Stmt.reviseElse_locate :
    ∀ (s : Option Stmt) (m : Positions), m.Lists 2 (Stmt.locateElse s) → Stmt.reviseElse id s m = s
  | none, _, _ => rfl
  | some s, m, h => by
    unfold Stmt.locateElse at h
    rw [Stmt.reviseElse, h.head, s.revise_locate]

theorem Stmt.reviseAll_locate : ∀ (ss : List Stmt) (i : Nat) (m : Positions),
    m.Lists i (Stmt.locateAll ss) → Stmt.reviseAll id ss i m = ss
  | [], _, _, _ => rfl
  | s :: ss, i, m, h => by
    unfold Stmt.locateAll at h
    rw [Stmt.reviseAll, h.head, s.revise_locate, Stmt.reviseAll_locate ss (i + 1) m h.tail]

end

theorem Parameter.reviseAll_locate {ps : List Parameter} (h : m.Lists i (ps.map Parameter.locate)) :
    Parameter.reviseAll id ps i m = ps := by
  induction ps generalizing i with
  | nil => rfl
  | cons p ps ih =>
    have here : m [i] = p.location := congrFun h.head []
    rw [Parameter.reviseAll, here, ih h.tail]
    rfl

theorem FunctionDef.revise_locate (f : FunctionDef) : f.revise id f.locate = f := by
  have parameters : Parameter.reviseAll id f.parameters 0 (f.locate.below 0) = f.parameters :=
    Parameter.reviseAll_locate (Positions.lists_node .nowhere _)
  have body : Stmt.reviseAll id f.body 0 (f.locate.below 1) = f.body :=
    Stmt.reviseAll_locate f.body 0 _ (Positions.lists_node .nowhere _)
  unfold FunctionDef.revise
  rw [parameters, body]
  rfl

theorem FunctionDef.reviseAll_locate {fs : List FunctionDef}
    (h : m.Lists i (fs.map FunctionDef.locate)) : FunctionDef.reviseAll id fs i m = fs := by
  induction fs generalizing i with
  | nil => rfl
  | cons f fs ih => rw [FunctionDef.reviseAll, h.head, f.revise_locate, ih h.tail]

/-- A program is the revision that renames nothing and moves nothing. -/
theorem Program.revise_locate (p : Program) : p.revise id p.locate = p := by
  have kept : FunctionDef.reviseAll id p.functions 0 p.locate = p.functions :=
    FunctionDef.reviseAll_locate (Positions.lists_node .nowhere _)
  unfold Program.revise
  rw [kept]

end Backpatch
