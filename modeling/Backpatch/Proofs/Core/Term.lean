import Backpatch.Code.Instr
import Backpatch.Tree.Node

/-!
# Core terms

What remains of a checked program when its names are resolved and its types have been used: terms,
which leave their value in a register, tests, whose value is where control goes, and actions. A
truth value is a test, and `Term.truth` is the one place where it becomes a number. Every tree that
the checker accepts has this form (`Term.Of`, `Test.Of`, `Action.Of`), so no operand is missing and
no operand is of the wrong kind.
-/

namespace Backpatch

/-- Where a name is kept: a variable by the number of the register that holds its address, a
parameter by its position. -/
inductive Place
  | variable (pointer : Nat)
  | parameter (index : Nat)
  deriving DecidableEq, Repr

def Place.binding : Place → Binding
  | .variable pointer => .local (.temp pointer)
  | .parameter index => .parameter index

mutual

/-- An expression that leaves its value in a register. -/
inductive Term
  | number (value : Int)
  | text (text : String)
  | read (place : Place)
  | call (name : String) (result : IrType) (arguments : Arguments)
  | truth (test : Test)
  | arithmetic (operator : Arithmetic) (type : Ty) (left right : Term)
  /-- A number cut to its last eight bits. -/
  | cut (operand : Term)
  /-- A cast that changes nothing. -/
  | same (operand : Term)
  | choice (type : IrType) (condition : Test) (thenValue elseValue : Term)

/-- An expression whose value is where control goes. -/
inductive Test
  | constant (value : Bool)
  | read (place : Place)
  | call (name : String) (arguments : Arguments)
  | not (operand : Test)
  | and (left right : Test)
  | or (left right : Test)
  | compare (predicate : Predicate) (left right : Term)
  | same (operand : Test)
  | choice (condition thenTest elseTest : Test)

/-- The arguments of a call, each with the type of its parameter. -/
inductive Arguments
  | nil
  | cons (type : IrType) (value : Term) (rest : Arguments)

end

mutual

inductive Action
  | declare (offset pointer : Nat) (initial : Option Term)
  | assign (place : Place) (value : Term)
  /-- Computes a value that nothing uses. -/
  | drop (value : Term)
  /-- Calls a function that returns nothing. -/
  | run (name : String) (arguments : Arguments)
  /-- Makes a test whose outcome nothing uses. -/
  | check (condition : Test)
  | when (condition : Test) (body : Action)
  | either (condition : Test) (thenBranch elseBranch : Action)
  | loop (condition : Test) (body : Action)
  | break
  | continue
  | return (value : Option Term)
  | block (body : Actions)

inductive Actions
  | nil
  | cons (first : Action) (rest : Actions)

end

/-- A function with the layout of its frame: how many variables it holds, and for each parameter
that is assigned to the number of the register with the address of its own place. -/
structure Routine where
  name : String
  returnType : Ty
  parameters : List Ty
  frameSize : Nat
  slots : List (Option Nat)
  body : Actions

/-! ## Terms of trees -/

/-- Both nodes are numbers, and the type is the one that includes both. -/
def Node.Numbers (a b : Node) (type : Ty) : Prop :=
  ∃ source source', a.type? = some source ∧ b.type? = some source' ∧ source.isNumeric = true ∧
    source'.isNumeric = true ∧ type = Ty.castUp source source'

theorem Node.Numbers.ne_bool {a b : Node} {type : Ty} (h : a.Numbers b type) : type ≠ .bool := by
  obtain ⟨source, source', -, -, numeric, numeric', rfl⟩ := h
  cases source <;> cases source' <;> first | exact Ty.noConfusion | cases numeric

/-- The type is the one that the values of both nodes are converted to. -/
def Node.Joins (a b : Node) (type : Ty) : Prop :=
  ∃ source source', a.type? = some source ∧ b.type? = some source' ∧ type = Ty.castUp source source'

theorem Ty.not_cut_of_convertibleTo {source target : Ty} (h : source.convertibleTo target = true) :
    ¬(source = .int ∧ target = .byte) := by
  rintro ⟨rfl, rfl⟩
  exact absurd h Bool.noConfusion

/-- The number that a literal puts into a register. -/
def LiteralValue.number? : LiteralValue → Option Int
  | .int value => some value.toInt
  | .byte value => some value.toNat
  | .bool _ | .string _ => none

mutual

/-- The term that a node of the tree stands for. -/
inductive Term.Of : Term → Node → Prop
  | number {id l value k} (hk : LiteralValue.number? value = some k) :
      Term.Of (.number k) (.mk id l (.expression value.type (.literal value)) [])
  | text {id l s} : Term.Of (.text s) (.mk id l (.expression .string (.literal (.string s))) [])
  | read {id l type name place} (hb : type ≠ .bool) :
      Term.Of (.read place) (.mk id l (.expression type (.identifier name place.binding)) [])
  | call {id l name type ir parameters arguments nodes} (hv : type ≠ .void) (hb : type ≠ .bool)
      (hir : type.ir? = some ir) (of : Arguments.Of arguments nodes parameters) :
      Term.Of (.call name ir arguments) (.mk id l (.expression type (.call name parameters)) nodes)
  | truth {test n} (of : Test.Of test n) : Term.Of (.truth test) n
  | arithmetic {id l operator type left right a b} (numbers : a.Numbers b type)
      (hx : Term.Of left a) (hy : Term.Of right b) :
      Term.Of (.arithmetic operator type left right)
        (.mk id l (.expression type (.arithmetic operator)) [a, b])
  | cut {id l operand a} (int : a.type? = some .int) (hx : Term.Of operand a) :
      Term.Of (.cut operand) (.mk id l (.expression .byte (.cast .byte)) [a])
  | same {id l target operand a source} (typed : a.type? = some source) (hb : target ≠ .bool)
      (converts : source.convertibleTo target = true) (hx : Term.Of operand a) :
      Term.Of (.same operand) (.mk id l (.expression target (.cast target)) [a])
  | choice {id l type ir condition thenValue elseValue c a b} (hb : type ≠ .bool)
      (joins : a.Joins b type)
      (hir : type.ir? = some ir) (hc : Test.Of condition c) (hx : Term.Of thenValue a)
      (hy : Term.Of elseValue b) :
      Term.Of (.choice ir condition thenValue elseValue)
        (.mk id l (.expression type .conditional) [c, a, b])

/-- The test that a node of the tree stands for. -/
inductive Test.Of : Test → Node → Prop
  | constant {id l value} : Test.Of (.constant value)
    (.mk id l (.expression .bool (.literal (.bool value))) [])
  | read {id l name place} :
      Test.Of (.read place) (.mk id l (.expression .bool (.identifier name place.binding)) [])
  | call {id l name parameters arguments nodes} (of : Arguments.Of arguments nodes parameters) :
      Test.Of (.call name arguments) (.mk id l (.expression .bool (.call name parameters)) nodes)
  | not {id l operand a} (hx : Test.Of operand a) : Test.Of (.not operand)
    (.mk id l (.expression .bool .not) [a])
  | and {id l left right a b} (hx : Test.Of left a) (hy : Test.Of right b) :
      Test.Of (.and left right) (.mk id l (.expression .bool .and) [a, b])
  | or {id l left right a b} (hx : Test.Of left a) (hy : Test.Of right b) :
      Test.Of (.or left right) (.mk id l (.expression .bool .or) [a, b])
  | compare {id l operator left right a b source source'} (typed : a.type? = some source)
      (typed' : b.type? = some source') (numeric : source.isNumeric = true)
      (numeric' : source'.isNumeric = true)
      (hx : Term.Of left a) (hy : Term.Of right b) :
      Test.Of (.compare (operator.predicate (Ty.castUp source source').isSigned) left right)
        (.mk id l (.expression .bool (.comparison operator)) [a, b])
  | same {id l operand a source} (typed : a.type? = some source) (hx : Test.Of operand a) :
      Test.Of (.same operand) (.mk id l (.expression .bool (.cast .bool)) [a])
  | choice {id l condition thenTest elseTest c a b} (hc : Test.Of condition c)
      (hx : Test.Of thenTest a) (hy : Test.Of elseTest b) :
      Test.Of (.choice condition thenTest elseTest)
        (.mk id l (.expression .bool .conditional) [c, a, b])

/-- The arguments that nodes stand for, for parameters of the given types. -/
inductive Arguments.Of : Arguments → List Node → List Ty → Prop
  | nil : Arguments.Of .nil [] []
  | cons {ir value rest n ns type types} (hir : type.ir? = some ir) (hx : Term.Of value n)
      (hrest : Arguments.Of rest ns types) :
      Arguments.Of (.cons ir value rest) (n :: ns) (type :: types)

end

/-- An expression that leaves its value in a register and is not a truth value. -/
def Term.isNumeral : Term → Bool
  | .truth _ => false
  | _ => true

mutual

/-- The action that a node of the tree stands for. -/
inductive Action.Of : Action → Node → Prop
  | declare {id l name type offset pointer} : Action.Of (.declare offset pointer none)
      (.mk id l (.statement (.declaration name type offset (.temp pointer))) [])
  | declareWith {id l name type offset pointer value a} (hx : Term.Of value a) :
      Action.Of (.declare offset pointer (some value))
        (.mk id l (.statement (.declaration name type offset (.temp pointer))) [a])
  | assign {id l place value a} (hx : Term.Of value a) :
      Action.Of (.assign place value) (.mk id l (.statement (.assignment place.binding)) [a])
  | drop {id l value a} (numeral : value.isNumeral = true) (hx : Term.Of value a) :
      Action.Of (.drop value) (.mk id l (.statement .expression) [a])
  | run {id l id' l' name parameters arguments nodes}
      (of : Arguments.Of arguments nodes parameters) : Action.Of (.run name arguments)
        (.mk id l (.statement .expression) [.mk id' l'
          (.expression .void (.call name parameters)) nodes])
  | check {id l condition a} (hx : Test.Of condition a) :
      Action.Of (.check condition) (.mk id l (.statement .expression) [a])
  | when {id l condition body c a} (hc : Test.Of condition c) (hx : Action.Of body a) :
      Action.Of (.when condition body) (.mk id l (.statement .conditional) [c, a])
  | either {id l condition thenBranch elseBranch c a b} (hc : Test.Of condition c)
      (hx : Action.Of thenBranch a) (hy : Action.Of elseBranch b) :
      Action.Of (.either condition thenBranch elseBranch)
        (.mk id l (.statement .conditional) [c, a, b])
  | loop {id l condition body c a} (hc : Test.Of condition c) (hx : Action.Of body a) :
      Action.Of (.loop condition body) (.mk id l (.statement .loop) [c, a])
  | break {id l} : Action.Of .break (.mk id l (.statement .break) [])
  | continue {id l} : Action.Of .continue (.mk id l (.statement .continue) [])
  | return {id l} : Action.Of (.return none) (.mk id l (.statement .return) [])
  | give {id l value a} (hx : Term.Of value a) :
      Action.Of (.return (some value)) (.mk id l (.statement .return) [a])
  | block {id l body nodes} (of : Actions.Of body nodes) :
      Action.Of (.block body) (.mk id l (.statement .block) nodes)

inductive Actions.Of : Actions → List Node → Prop
  | nil : Actions.Of .nil []
  | cons {first rest n ns} (hx : Action.Of first n) (hrest : Actions.Of rest ns) :
      Actions.Of (.cons first rest) (n :: ns)

end

/-- The function that a node of the tree stands for. -/
def Routine.Of (f : Routine) (n : Node) : Prop :=
  ∃ id l id' l' nodes,
    n = .mk id l (.function
        { name := f.name, returnType := f.returnType, parameters := f.parameters
          frameSize := f.frameSize, slots := f.slots.map (Option.map .temp) })
      [.mk id' l' (.statement .block) nodes] ∧ f.body.Of nodes

/-- The functions that nodes of the tree stand for. -/
def Routine.OfAll : List Routine → List Node → Prop
  | [], nodes => nodes = []
  | f :: fs, nodes => ∃ n ns, nodes = n :: ns ∧ f.Of n ∧ OfAll fs ns

theorem Routine.OfAll.exists_of {fs : List Routine} {nodes : List Node}
    (h : Routine.OfAll fs nodes) : ∀ n ∈ nodes, ∃ f ∈ fs, f.Of n := by
  induction fs generalizing nodes with
  | nil =>
    rw [show nodes = [] from h]
    exact List.forall_mem_nil _
  | cons f fs ih =>
    obtain ⟨n, ns, rfl, hf, hfs⟩ := h
    refine List.forall_mem_cons.mpr ⟨⟨f, List.mem_cons_self, hf⟩, fun m mem => ?_⟩
    obtain ⟨g, inside, hg⟩ := ih hfs m mem
    exact ⟨g, List.mem_cons_of_mem _ inside, hg⟩

end Backpatch
