import Backpatch.Code.Function
import Backpatch.Proofs.Text.Clean
import Backpatch.Proofs.Tree

/-!
# What the emission of a node may touch

The emission is made of a few kinds of steps. It reads and changes what is kept about the nodes of
the tree that it emits and about no other node, it writes labels and branches only where they are
new, and it fills holes only with labels that it has written itself. `Confined` says this of a
sequence of steps, and `confined_expression` and `confined_statement` say it of every node, well
formed or not. What all the steps keep is then shown once, by induction on `Confined`.
-/

namespace Backpatch

open Emission List

/-! ## Steps -/

/-- The line is neither a label nor a branch. -/
@[reducible] def Instr.isOrdinary : Instr → Bool
  | .label _ | .jump _ | .branch .. | .verbatim .. => false
  | _ => true

namespace Emission

/-- The computation is made of steps of the emission. It keeps to what is known about the nodes
`nodes`, and fills holes only with labels that are given to it or that it has written itself. -/
class inductive Confined (nodes : NodeId → Prop) : List Label → {α : Type} → EmitM α → Prop
  | pure {known} {α : Type} (a : α) : Confined nodes known (Pure.pure a)
  | fault {known} {α : Type} (f : Fault) : Confined nodes known (fault f : EmitM α)
  | bind {known} {α β : Type} {step : EmitM α} {next : α → EmitM β}
      (first : Confined nodes known step) (rest : ∀ a, Confined nodes known (next a)) :
      Confined nodes known (step >>= next)
  | write {known} (i : Instr) (ordinary : i.isOrdinary = true) :
    Confined nodes known (write i)
  | jump {known} : Confined nodes known jump
  | branch {known} (condition : Register) : Confined nodes known (branch condition)
  | increaseIndent {known} : Confined nodes known increaseIndent
  | decreaseIndent {known} : Confined nodes known decreaseIndent
  | freshRegister {known} : Confined nodes known freshRegister
  | constant {known} (length : Nat) {body : String} (clean : Clean body) :
      Confined nodes known (constant length body)
  | label {known} {β : Type} {next : Label → EmitM β}
      (rest : ∀ l, Confined nodes (l :: known) (next l)) : Confined nodes known (label >>= next)
  | backpatch {known} (records : PatchList) {l : Label} (given : l ∈ known) :
      Confined nodes known (backpatch records l)
  | modifyExits {known} {id : NodeId} (mem : nodes id) (f : Exits → Exits) :
      Confined nodes known (modifyExits id f)
  | exitsOf {known} {id : NodeId} (mem : nodes id) : Confined nodes known (exitsOf id)

section

variable {nodes nodes' : NodeId → Prop} {known known' : List Label} {α β : Type}

variable {id : NodeId} {step : EmitM α} {c : Prop}

/-- More nodes and more labels do no harm. -/
theorem Confined.mono (h : Confined nodes known step) (hn : ∀ id, nodes id → nodes' id)
    (hk : known ⊆ known') : Confined nodes' known' step := by
  induction h generalizing known' with
  | pure a => exact .pure a
  | fault f => exact .fault f
  | bind _ _ ihFirst ihRest => exact .bind (ihFirst hk) fun a => ihRest a hk
  | write i ordinary => exact .write i ordinary
  | jump => exact .jump
  | branch condition => exact .branch condition
  | increaseIndent => exact .increaseIndent
  | decreaseIndent => exact .decreaseIndent
  | freshRegister => exact .freshRegister
  | constant length clean => exact .constant length clean
  | label _ ih => exact .label fun l => ih l (cons_subset_cons l hk)
  | backpatch records given => exact .backpatch records (hk given)
  | modifyExits mem f => exact .modifyExits (hn _ mem) f
  | exitsOf mem => exact .exitsOf (hn _ mem)

/-- A condition on steps that instances show. -/
class Given {α : Type} (P : α → Prop) (a : α) : Prop where
  holds : P a

instance : Given (· = true) true := ⟨rfl⟩

instance {a : α} : Given (fun _ => True) a := ⟨trivial⟩

instance {l : Label} : Given (· ∈ l :: known) l := ⟨mem_cons_self⟩

instance {l l' : Label} [h : Given (· ∈ known) l] : Given (· ∈ l' :: known) l :=
  ⟨mem_cons_of_mem _ h.holds⟩

-- The size of an instance doubles with every step of the code.
set_option synthInstance.maxSize 20000

attribute [instance] Confined.pure Confined.fault Confined.jump Confined.branch
  Confined.increaseIndent Confined.decreaseIndent Confined.freshRegister

instance {next : α → EmitM β} [first : Confined nodes known step]
    [rest : ∀ a, Confined nodes known (next a)] :
    Confined nodes known (step >>= next) := .bind first rest

instance {next : Label → EmitM β} [rest : ∀ l, Confined nodes (l :: known) (next l)] :
    Confined nodes known (label >>= next) := .label rest

instance [Decidable c] {step' : EmitM α} [h : Confined nodes known step]
    [h' : Confined nodes known step'] : Confined nodes known (if c then step else step') := by
  split
  · exact h
  · exact h'

/-- A step that is made only where it is needed. -/
instance [Decidable c] {step : EmitM Unit} {next : Unit → EmitM β} [Confined nodes known step]
    [rest : ∀ u, Confined nodes known (next u)] :
    Confined nodes known (if c then step >>= next else next ()) := by
  split
  · infer_instance
  · exact rest ()

instance {i : Instr} [h : Given (· = true) i.isOrdinary] : Confined nodes known (write i) :=
  .write i h.holds

instance {records : PatchList} {l : Label} [h : Given (· ∈ known) l] :
    Confined nodes known (backpatch records l) :=
  .backpatch records h.holds

instance {length : Nat} {text : String} :
    Confined nodes known (constant length (Text.constantBody text)) :=
  .constant length (clean_constantBody text)

instance [h : Given nodes id] {f : Exits → Exits} : Confined nodes known (modifyExits id f) :=
  .modifyExits h.holds f

instance [h : Given nodes id] : Confined nodes known (exitsOf id) := .exitsOf h.holds

/-! ## Expressions -/

section Steps

variable [Given nodes id] {type : Ty} {register left right : Register}
  {onTrue onFalse next : PatchList} {leaving : Leaving} {frame : Option Frame} {n : Node}

instance : Confined nodes known (setPlace id register) := .modifyExits Given.holds _

instance : Confined nodes known (setBranches id onTrue onFalse) := .modifyExits Given.holds _

instance : Confined nodes known (setNext id next) := .modifyExits Given.holds _

instance : Confined nodes known (setLeaving id leaving) := .modifyExits Given.holds _

instance : Confined nodes known (takeBranches id) := by
  unfold takeBranches
  infer_instance

instance : Confined nodes known (takeLeaving id) := by
  unfold takeLeaving
  infer_instance

instance : Confined nodes known (materialize id) := by
  unfold materialize
  infer_instance

instance : Confined nodes known (branchOn id register) := by
  unfold branchOn
  infer_instance

instance : Confined nodes known (setResult id type register) := by
  unfold setResult
  infer_instance

instance {k : Int} : Confined nodes known (loadNumber k) := by
  unfold loadNumber
  infer_instance

instance : Confined nodes known (loadFrom register) := by
  unfold loadFrom
  infer_instance

instance : Confined nodes known (guardDivision register) := by
  unfold guardDivision
  infer_instance

instance : Confined nodes known (truncate register) := by
  unfold truncate
  infer_instance

instance {operator : Arithmetic} :
    Confined nodes known (emitArithmetic operator type left right) := by
  unfold emitArithmetic
  infer_instance

instance : Confined nodes known closeArm := by
  unfold closeArm
  infer_instance

instance : Confined nodes known (fallThrough id) := by
  unfold fallThrough
  infer_instance

instance : Confined nodes known (irType type) := by
  unfold irType
  split <;> infer_instance

instance {name : String} {arguments : List (IrType × Operand)} :
    Confined nodes known (emitCall id type name arguments) := by
  unfold emitCall
  infer_instance

instance {types : List Ty} : Confined nodes known (irTypes types) := by
  induction types <;> unfold irTypes <;> infer_instance

instance {n : Node} [Given nodes n.id] : Confined nodes known (valueOf n) := by
  unfold valueOf
  split
  · infer_instance
  · exact .bind inferInstance fun _ => by split <;> infer_instance

instance : Confined nodes known (typeOf n) := by
  unfold typeOf
  split <;> infer_instance

instance {value : LiteralValue} : Confined nodes known (emitLiteral id value) := by
  cases value <;> unfold emitLiteral <;> infer_instance

instance : Confined nodes known (frameOf frame) := by
  unfold frameOf
  split <;> infer_instance

instance {index : Nat} : Confined nodes known (parameterSlot frame index) := by
  unfold parameterSlot
  split
  · infer_instance
  · split <;> infer_instance

instance {binding : Binding} : Confined nodes known (readBinding frame binding) := by
  cases binding with
  | «local» pointer => exact inferInstanceAs (Confined nodes known (loadFrom pointer))
  | parameter index => exact .bind inferInstance fun _ => by split <;> infer_instance

instance {binding : Binding} : Confined nodes known (pointerOf frame binding) := by
  cases binding with
  | «local» pointer => exact .pure pointer
  | parameter index => exact .bind inferInstance fun _ => by split <;> infer_instance

instance {index : Nat} {slots : List (Option Register)} :
    Confined nodes known (spillParameters index slots) := by
  induction slots generalizing index with
  | nil => exact .pure _
  | cons slot slots ih =>
    cases slot with
    | none => exact ih
    | some slot =>
      unfold spillParameters
      infer_instance

end Steps

end

/-! ## Trees -/

set_option synthInstance.maxSize 20000

/-- The emission of the node keeps to the nodes, and one of them is its own. -/
class Holds (nodes : NodeId → Prop) (n : Node) : Prop where
  id : nodes n.id
  expression : ∀ frame known, Confined nodes known (emitExpression frame n)
  statement : ∀ frame known, Confined nodes known (emitStatement frame n)
  function : ∀ known, Confined nodes known (emitFunction n)

class HoldsAll (nodes : NodeId → Prop) (ns : List Node) : Prop where
  part : ∀ n ∈ ns, Holds nodes n

section Trees

variable {nodes : NodeId → Prop} {known : List Label} {frame : Option Frame} {n : Node}
  {ns : List Node}

instance [h : Holds nodes n] : Given nodes n.id := ⟨h.id⟩

instance [h : Holds nodes n] : Confined nodes known (emitExpression frame n) :=
  h.expression frame known

instance [h : Holds nodes n] : Confined nodes known (emitStatement frame n) :=
  h.statement frame known

instance [h : Holds nodes n] : Confined nodes known (emitFunction n) := h.function known

instance [Holds nodes n] : Confined nodes known (emitValue frame n) := by
  unfold emitValue
  infer_instance

theorem holdsAll_cons : HoldsAll nodes (n :: ns) ↔ Holds nodes n ∧ HoldsAll nodes ns :=
  ⟨fun h => ⟨h.part n mem_cons_self, ⟨fun m mem => h.part m (mem_cons_of_mem n mem)⟩⟩,
    fun h => ⟨forall_mem_cons.mpr ⟨h.1, h.2.part⟩⟩⟩

instance [h : HoldsAll nodes ns] {types : List Ty} :
    Confined nodes known (emitArguments frame ns types) := by
  induction ns generalizing h types with
  | nil => exact .pure _
  | cons n ns ih =>
    obtain ⟨_, _⟩ := holdsAll_cons.mp h
    cases types <;> unfold emitArguments <;> infer_instance

instance [h : HoldsAll nodes ns] {before : Leaving} :
    Confined nodes known (emitRest frame before ns) := by
  induction ns generalizing h before known with
  | nil => exact .pure _
  | cons n ns ih =>
    obtain ⟨_, _⟩ := holdsAll_cons.mp h
    unfold emitRest
    infer_instance

instance [h : HoldsAll nodes ns] : Confined nodes known (emitFunctions ns) := by
  induction ns generalizing h with
  | nil => exact .pure _
  | cons n ns ih =>
    obtain ⟨_, _⟩ := holdsAll_cons.mp h
    unfold emitFunctions
    infer_instance

section Parts

variable {id : NodeId} {l : Location} {kind : NodeKind}

theorem confined_expression [Given nodes id] (parts : HoldsAll nodes ns) :
    Confined nodes known (emitExpression frame (.mk id l kind ns)) := by
  cases kind with
  | expression type kind =>
    rcases ns with _ | ⟨a, ns⟩
    · cases kind <;> unfold emitExpression <;> infer_instance
    obtain ⟨_, parts⟩ := holdsAll_cons.mp parts
    rcases ns with _ | ⟨b, ns⟩
    · cases kind <;> unfold emitExpression <;> infer_instance
    obtain ⟨_, parts⟩ := holdsAll_cons.mp parts
    rcases ns with _ | ⟨c, ns⟩
    · cases kind <;> unfold emitExpression <;> infer_instance
    obtain ⟨_, parts⟩ := holdsAll_cons.mp parts
    cases kind <;> unfold emitExpression <;> infer_instance
  | _ => exact .fault _

theorem confined_statement [Given nodes id] (parts : HoldsAll nodes ns) :
    Confined nodes known (emitStatement frame (.mk id l kind ns)) := by
  cases kind with
  | statement kind =>
    rcases ns with _ | ⟨a, ns⟩
    · cases kind <;> unfold emitStatement <;> infer_instance
    obtain ⟨_, parts⟩ := holdsAll_cons.mp parts
    rcases ns with _ | ⟨b, ns⟩
    · cases kind <;> unfold emitStatement <;> infer_instance
    obtain ⟨_, parts⟩ := holdsAll_cons.mp parts
    rcases ns with _ | ⟨c, ns⟩
    · cases kind <;> unfold emitStatement <;> infer_instance
    obtain ⟨_, parts⟩ := holdsAll_cons.mp parts
    cases kind <;> unfold emitStatement <;> infer_instance
  | _ => exact .fault _

theorem confined_function (parts : HoldsAll nodes ns) :
    Confined nodes known (emitFunction (.mk id l kind ns)) := by
  cases kind with
  | function info =>
    rcases ns with _ | ⟨body, _ | ⟨other, more⟩⟩
    · exact .fault _
    · obtain ⟨_, _⟩ := holdsAll_cons.mp parts
      unfold emitFunction
      dsimp only
      infer_instance
    · exact .fault _
  | _ => exact .fault _

end Parts

mutual

theorem holds_of_ids : ∀ n : Node, (∀ id ∈ n.ids, nodes id) → Holds nodes n
  | .mk id l kind children, mem => by
    have self : Given nodes id := ⟨mem id (Node.id_mem_ids (.mk id l kind children))⟩
    rw [Node.ids_mk] at mem
    have parts := holdsAll_of_ids children fun i h => mem i (mem_append_left _ h)
    exact ⟨self.holds, fun _ _ => confined_expression parts, fun _ _ => confined_statement parts,
      fun _ => confined_function parts⟩

theorem holdsAll_of_ids : ∀ ns : List Node, (∀ id ∈ Node.idsAll ns, nodes id) → HoldsAll nodes ns
  | [], _ => ⟨forall_mem_nil _⟩
  | m :: ns, mem => by
    rw [Node.idsAll_cons] at mem
    exact holdsAll_cons.mpr ⟨holds_of_ids m fun id h => mem id (mem_append_left _ h),
      holdsAll_of_ids ns fun id h => mem id (mem_append_right _ h)⟩

end

instance : Holds (fun _ => True) n := holds_of_ids n fun _ _ => trivial

instance : HoldsAll (fun _ => True) ns := holdsAll_of_ids ns fun _ _ => trivial

instance : Holds (· ∈ n.ids) n := holds_of_ids n fun _ mem => mem

end Trees

end Emission

end Backpatch
