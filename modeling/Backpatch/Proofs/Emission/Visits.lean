import Backpatch.Proofs.Emission.Onward
import Backpatch.Proofs.Emission.Parts

/-!
# When a node is emitted

The emission of a node comes to each of its children in turn. What it has done by then is `ahead`,
and what it does afterwards does not reach the labels of the child any more (`resumed_of_shape`).
-/

namespace Backpatch

open Emission List

/-! ## Children of nodes -/

/-- The outcome of the left operand with which the right one is evaluated. -/
def ExprKind.passes : ExprKind → Option Way
  | .and => some .onTrue
  | .or => some .onFalse
  | _ => none

/-- How many children a node of a body has, and which of them are expressions. -/
inductive Node.Shape : Node → Prop
  | literal {id l type value} : Shape (.mk id l (.expression type (.literal value)) [])
  | identifier {id l type name binding} : Shape
    (.mk id l (.expression type (.identifier name binding)) [])
  | call {id l type name parameters arguments} (count : arguments.length = parameters.length)
      (ha : ∀ a ∈ arguments, a.IsExpression) :
      Shape (.mk id l (.expression type (.call name parameters)) arguments)
  | not {id l type a} (ha : a.IsExpression) : Shape (.mk id l (.expression type .not) [a])
  | and {id l type a b} (ha : a.type? = some .bool) (hb : b.IsExpression) :
      Shape (.mk id l (.expression type .and) [a, b])
  | or {id l type a b} (ha : a.type? = some .bool) (hb : b.IsExpression) :
      Shape (.mk id l (.expression type .or) [a, b])
  | arithmetic {id l type operator a b} (ha : a.IsExpression) (hb : b.IsExpression) :
      Shape (.mk id l (.expression type (.arithmetic operator)) [a, b])
  | comparison {id l type operator a b} (ha : a.IsExpression) (hb : b.IsExpression) :
      Shape (.mk id l (.expression type (.comparison operator)) [a, b])
  | cast {id l type target a} (ha : a.IsExpression) :
    Shape (.mk id l (.expression type (.cast target)) [a])
  | choice {id l type c a b} (hc : c.IsExpression) (ha : a.IsExpression) (hb : b.IsExpression) :
      Shape (.mk id l (.expression type .conditional) [c, a, b])
  | declare {id l name type offset pointer} :
      Shape (.mk id l (.statement (.declaration name type offset pointer)) [])
  | declareWith {id l name type offset pointer a} (ha : a.IsExpression) :
      Shape (.mk id l (.statement (.declaration name type offset pointer)) [a])
  | assign {id l binding a} (ha : a.IsExpression) :
    Shape (.mk id l (.statement (.assignment binding)) [a])
  | expression {id l a} (ha : a.IsExpression) : Shape (.mk id l (.statement .expression) [a])
  | when {id l c a} (hc : c.IsExpression) (ha : a.IsStatement) :
    Shape (.mk id l (.statement .conditional) [c, a])
  | either {id l c a b} (hc : c.IsExpression) (ha : a.IsStatement) (hb : b.IsStatement) :
      Shape (.mk id l (.statement .conditional) [c, a, b])
  | loop {id l c a} (hc : c.IsExpression) (ha : a.IsStatement) :
    Shape (.mk id l (.statement .loop) [c, a])
  | break {id l} : Shape (.mk id l (.statement .break) [])
  | continue {id l} : Shape (.mk id l (.statement .continue) [])
  | return {id l} : Shape (.mk id l (.statement .return) [])
  | give {id l a} (ha : a.IsExpression) : Shape (.mk id l (.statement .return) [a])
  | block {id l nodes} (ha : ∀ a ∈ nodes, a.IsStatement) :
    Shape (.mk id l (.statement .block) nodes)

section Shapes

variable {frame : Frame} {limit : Nat} {n : Node}

variable {test : Test} {term : Term} {action : Action} {nodes : List Node}

theorem Test.Of.isExpression (h : test.Of n) : n.IsExpression := ⟨_, h.type?⟩

theorem Term.Of.isExpression (h : term.Of n) : n.IsExpression := h.typed

theorem Action.Of.isStatement (h : action.Of n) : n.IsStatement := by
  obtain ⟨kind, is, -⟩ := h.kind
  exact ⟨kind, is⟩

theorem Arguments.Of.shape {arguments : Arguments} {types : List Ty}
    (h : arguments.Of nodes types) : nodes.length = types.length ∧ ∀ a ∈ nodes, a.IsExpression := by
  induction nodes generalizing arguments types with
  | nil =>
    cases h
    exact ⟨rfl, forall_mem_nil _⟩
  | cons n ns ih =>
    cases h with
    | cons _ hx hrest =>
      obtain ⟨count, later⟩ := ih hrest
      exact ⟨congrArg (· + 1) count, forall_mem_cons.mpr ⟨hx.isExpression, later⟩⟩

theorem Actions.Of.statements {actions : Actions} (h : actions.Of nodes) :
    ∀ a ∈ nodes, a.IsStatement := by
  induction nodes generalizing actions with
  | nil => exact forall_mem_nil _
  | cons n ns ih =>
    cases h with
    | cons hx hrest => exact forall_mem_cons.mpr ⟨hx.isStatement, ih hrest⟩

theorem Test.Of.shape (h : test.Of n) : n.Shape := by
  cases h with
  | constant => exact .literal
  | read => exact .identifier
  | call of => exact .call of.shape.1 of.shape.2
  | not hx => exact .not hx.isExpression
  | and hx hy => exact .and hx.type? hy.isExpression
  | or hx hy => exact .or hx.type? hy.isExpression
  | compare _ _ _ _ hx hy => exact .comparison hx.isExpression hy.isExpression
  | same _ hx => exact .cast hx.isExpression
  | choice hc hx hy => exact .choice hc.isExpression hx.isExpression hy.isExpression

theorem Term.Of.shape (h : term.Of n) : n.Shape := by
  cases h with
  | number | text => exact .literal
  | read => exact .identifier
  | call _ _ _ of => exact .call of.shape.1 of.shape.2
  | truth of => exact of.shape
  | arithmetic _ hx hy => exact .arithmetic hx.isExpression hy.isExpression
  | cut _ hx | same _ _ _ hx => exact .cast hx.isExpression
  | choice _ _ _ hc hx hy => exact .choice hc.isExpression hx.isExpression hy.isExpression

theorem Action.Of.shape (h : action.Of n) : n.Shape := by
  cases h with
  | declare => exact .declare
  | declareWith hx => exact .declareWith hx.isExpression
  | assign hx => exact .assign hx.isExpression
  | drop _ hx => exact .expression hx.isExpression
  | run => exact .expression ⟨_, rfl⟩
  | check hx => exact .expression hx.isExpression
  | when hc hx => exact .when hc.isExpression hx.isStatement
  | either hc hx hy => exact .either hc.isExpression hx.isStatement hy.isStatement
  | loop hc hx => exact .loop hc.isExpression hx.isStatement
  | «break» => exact .break
  | «continue» => exact .continue
  | «return» => exact .return
  | give hx => exact .give hx.isExpression
  | block of => exact .block of.statements

theorem Frame.Part.shape {Q : Signatures} (part : frame.Part limit Q n) : n.Shape := by
  cases part with
  | value of | test of | action of => exact of.shape
  | call of => exact .call of.shape.1 of.shape.2

end Shapes

/-! ## Ahead of a child -/

namespace Emission

/-- Emits a condition and goes on where it is true. The result is where it is false. -/
def whenTrue (frame : Option Frame) (n : Node) : EmitM PatchList := do
  emitExpression frame n
  let (onTrue, onFalse) ← takeBranches n.id
  let here ← label
  backpatch onTrue here
  return onFalse

/-- Goes on at a label that the holes are filled with. -/
def resume (records : PatchList) : EmitM Unit := do
  let here ← label
  backpatch records here

/-- What the emission of a node does before the emission of its `i`-th child. -/
def ahead (frame : Option Frame) (n : Node) (i : Nat) : EmitM Unit :=
  match n.kind, n.children, i with
  | .expression _ (.call _ parameters), arguments, i => do
    let _ ← emitArguments frame (arguments.take i) parameters
  | .expression _ .and, left :: _, 1 => do
    let _ ← whenTrue frame left
  | .expression _ .or, left :: _, 1 => do
    emitExpression frame left
    let (_, onFalse) ← takeBranches left.id
    resume onFalse
  | .expression _ (.arithmetic _), left :: _, 1 => do
    let _ ← emitValue frame left
  | .expression _ (.comparison _), left :: _, 1 => do
    let _ ← emitValue frame left
  | .expression _ .conditional, condition :: _, 1 => do
    let _ ← whenTrue frame condition
  | .expression type .conditional, condition :: thenValue :: _, 2 => do
    let onFalse ← whenTrue frame condition
    emitExpression frame thenValue
    if type = .bool then
      let _ ← takeBranches thenValue.id
    else
      let _ ← valueOf thenValue
      let _ ← closeArm
    resume onFalse
  | .statement (.declaration _ _ offset pointer), _, 0 => do
    let size := (← frameOf frame).size
    write (.slotAddress pointer size offset)
  | .statement .conditional, condition :: _, 1 => do
    let _ ← whenTrue frame condition
  | .statement .conditional, condition :: thenBranch :: _, 2 => do
    let onFalse ← whenTrue frame condition
    emitStatement frame thenBranch
    let _ ← takeLeaving thenBranch.id
    resume onFalse
  | .statement .loop, _, 0 => do
    let enter ← jump
    resume [enter]
  | .statement .loop, condition :: _, 1 => do
    let enter ← jump
    resume [enter]
    let _ ← whenTrue frame condition
  | .statement .block, first :: rest, i + 1 => do
    emitStatement frame first
    let leaving ← takeLeaving first.id
    let leaving ← emitRest frame leaving (rest.take i)
    resume leaving.next
  | _, _, 0 => pure ()
  | _, _, _ => fault .outOfRange

section Resumed

set_option synthInstance.maxSize 20000

variable {frame : Option Frame} {m n : Node} {i : Nat} {u v : Emission}

/-- The emission of `m` from `u` to `v` has come to its `i`-th child `n`, and has gone on without
the labels of the child. -/
def Resumed (frame : Option Frame) (m : Node) (i : Nat) (n : Node) (u v : Emission) : Prop :=
  ∃ u₁ u₂, ahead frame m i u = .ok ((), u₁) ∧ emitNode frame n u₁ = .ok ((), u₂) ∧
    Onward (Label.Within 0 u₁.names.labels) u₂ v

variable {known : List Label} {α : Type} {s s' u₁ : Emission} {records : PatchList}
  {nodes : NodeId → Prop} {a b : Node}

/-- The computation fills holes only with labels of its own. -/
theorem onward_closed {step : EmitM α} [h : Confined (fun _ => True) [] step]
    {known : Label → Prop} {a : α} (ran : step s = .ok (a, s')) : Onward known s s' :=
  (h.onward ran).mono fun _ given => absurd given not_mem_nil

/-- The code has gone on at a fresh label, which the holes have been filled with. -/
structure Continued (records : PatchList) (s s' : Emission) : Prop where
  labels : s'.names.labels = s.names.labels + 1
  size : s'.buffer.lines.size = s.buffer.lines.size + 1
  label : s'.buffer.label? s.buffer.lines.size = some (.numbered s.names.labels)
  targets : ∀ r, s'.buffer.target? r =
    if r ∈ records then some (some (.numbered s.names.labels)) else s.buffer.target? r

theorem Continued.of_eq {t : Emission} (h : Continued records s s') (names : s.names = t.names)
    (buffer : s.buffer = t.buffer) : Continued records t s' := by
  obtain ⟨labels, size, label, targets⟩ := h
  rw [names] at labels label targets
  rw [buffer] at size label targets
  exact ⟨labels, size, label, targets⟩

theorem continued_of_label {here : Label} {s₁ s₂ : Emission} (new : label u = .ok (here, s₁))
    (patched : backpatch records here s₁ = .ok ((), s₂)) : Continued records u s₂ := by
  cases new
  obtain ⟨patched, eq⟩ := backpatch_eq_ok patched
  have lines : (u.buffer.emitLabel (.numbered u.names.labels)).lines
      = u.buffer.lines.push ⟨0, .label (.numbered u.names.labels)⟩ := rfl
  refine ⟨congrArg (·.names.labels) eq, ?_, ?_, ?_⟩
  · rw [CodeBuffer.size_backpatch patched]
    exact (congrArg Array.size lines).trans (Array.size_push _)
  · rw [CodeBuffer.label?_backpatch patched]
    exact (CodeBuffer.label?_push lines _).trans (if_pos rfl)
  · intro r
    rw [CodeBuffer.target?_backpatch patched]
    refine if_congr Iff.rfl rfl ?_
    refine (CodeBuffer.target?_push lines r).trans ?_
    split
    · rename_i line
      cases old : u.buffer.target? r with
      | none => rfl
      | some t => exact absurd line (Nat.ne_of_lt (CodeBuffer.line_lt_of_target? old))
    · rfl

theorem Continued.within (h : Continued records s s') :
    Label.Within 0 s'.names.labels (.numbered s.names.labels) :=
  ⟨_, rfl, Nat.zero_le _, h.labels ▸ Nat.lt_succ_self _⟩

section Going

variable {α : Type} {a : α}

theorem resume_eq_ok {records : PatchList} {rest : Label → EmitM α}
    (ran : (label >>= fun here => backpatch records here >>= fun _ => rest here) u = .ok (a, v)) :
    ∃ s, resume records u = .ok ((), s) ∧ Continued records u s ∧
      rest (.numbered u.names.labels) s = .ok (a, v) := by
  obtain ⟨here, s₁, new, rest₁⟩ := bind_eq_ok ran
  obtain ⟨⟨⟩, s, patched, rest₂⟩ := bind_eq_ok rest₁
  refine ⟨s, (bind_ok new).trans patched, continued_of_label new patched, ?_⟩
  cases new
  exact rest₂

theorem whenTrue_eq_ok {rest : PatchList × PatchList → EmitM α}
    (ran : (emitExpression frame n >>= fun _ => takeBranches n.id >>= fun lists =>
      label >>= fun here =>
      backpatch lists.1 here >>= fun _ => rest lists) u = .ok (a, v)) :
    ∃ s₁ s, emitExpression frame n u = .ok ((), s₁) ∧
      whenTrue frame n u = .ok ((s₁.exits.get n.id).onFalse, s) ∧
        Continued (s₁.exits.get n.id).onTrue s₁ s ∧
      rest ((s₁.exits.get n.id).onTrue, (s₁.exits.get n.id).onFalse) s = .ok (a, v) := by
  obtain ⟨⟨⟩, s₁, first, rest₁⟩ := bind_eq_ok ran
  obtain ⟨lists, s₂, taken, rest₂⟩ := bind_eq_ok rest₁
  obtain ⟨here, s₃, new, rest₃⟩ := bind_eq_ok rest₂
  obtain ⟨⟨⟩, s, patched, rest₄⟩ := bind_eq_ok rest₃
  have continued := continued_of_label new patched
  have condition : whenTrue frame n u = .ok (lists.2, s) :=
    (bind_ok first).trans ((bind_ok taken).trans ((bind_ok new).trans (bind_ok patched)))
  obtain ⟨rfl, rfl⟩ := takeBranches_eq_ok taken
  exact ⟨s₁, s, first, condition, continued.of_eq rfl rfl, rest₄⟩

end Going

instance [Holds nodes n] : Confined nodes known (whenTrue frame n) := by
  unfold whenTrue
  infer_instance

instance : Confined nodes known (resume records) := by
  unfold resume
  infer_instance

section

variable (lead : ahead frame m i u = .ok ((), u₁))

include lead

/-- The emission has come to a child and goes on with what keeps to labels of its own. -/
theorem resumed_node {rest : Unit → EmitM α} {a : α}
    (ran : (emitNode frame n >>= rest) u₁ = .ok (a, v))
    (old : ∀ l ∈ known, l.Within 0 u₁.names.labels)
    [tail : Confined (fun _ => True) known (rest ())] : Resumed frame m i n u v := by
  obtain ⟨⟨⟩, u₂, emitted, ran⟩ := bind_eq_ok ran
  exact ⟨u₁, u₂, lead, emitted, (tail.onward ran).mono old⟩

theorem resumed_expression (expression : n.IsExpression)
    {rest : Unit → EmitM α} {a : α} (ran : (emitExpression frame n >>= rest) u₁ = .ok (a, v))
    [Confined (fun _ => True) [] (rest ())] : Resumed frame m i n u v :=
  resumed_node lead (emitNode_expression expression ▸ ran) (forall_mem_nil _)

theorem resumed_value (expression : n.IsExpression)
    {rest : Register → EmitM Unit} (ran : (emitValue frame n >>= rest) u₁ = .ok ((), v))
    [∀ r, Confined (fun _ => True) [] (rest r)] : Resumed frame m i n u v :=
  resumed_expression lead expression
    ((congrFun (bind_assoc (emitExpression frame n) _ rest) u₁).symm.trans ran)

theorem resumed_statement (statement : n.IsStatement)
    {rest : Unit → EmitM α} {a : α} (ran : (emitStatement frame n >>= rest) u₁ = .ok (a, v))
    [Confined (fun _ => True) [] (rest ())] : Resumed frame m i n u v :=
  resumed_node lead (emitNode_statement statement ▸ ran) (forall_mem_nil _)

end

/-! ### Expressions -/

theorem of_getElem?_one (h : [a][i]? = some n) : i = 0 ∧ a = n := by
  rcases i with _ | i
  · exact ⟨rfl, Option.some.inj h⟩
  · cases h

theorem of_getElem?_two (h : [a, b][i]? = some n) : (i = 0 ∧ a = n) ∨ (i = 1 ∧ b = n) := by
  rcases i with _ | _ | i
  · exact .inl ⟨rfl, Option.some.inj h⟩
  · exact .inr ⟨rfl, Option.some.inj h⟩
  · cases h

theorem of_getElem?_three {c : Node} (h : [a, b, c][i]? = some n) :
    (i = 0 ∧ a = n) ∨ (i = 1 ∧ b = n) ∨ (i = 2 ∧ c = n) := by
  rcases i with _ | _ | _ | i
  · exact .inl ⟨rfl, Option.some.inj h⟩
  · exact .inr (.inl ⟨rfl, Option.some.inj h⟩)
  · exact .inr (.inr ⟨rfl, Option.some.inj h⟩)
  · cases h

section Expressions

variable {id : NodeId} {l : Location} {type : Ty} {a b c : Node}

variable {arguments : List Node} {kind : ExprKind} {w : Way}

theorem resumed_arguments {types : List Ty} (count : arguments.length = types.length)
    (ha : ∀ a ∈ arguments, a.IsExpression) (child : arguments[i]? = some n)
    {values : List (IrType × Operand)}
    (ran : emitArguments frame arguments types u = .ok (values, v)) :
    ∃ earlier u₁ u₂, emitArguments frame (arguments.take i) types u = .ok (earlier, u₁) ∧
      emitNode frame n u₁ = .ok ((), u₂) ∧ Onward (fun _ => False) u₂ v := by
  induction arguments generalizing i types u values with
  | nil => cases child
  | cons a arguments ih =>
    rcases types with _ | ⟨type, types⟩
    · cases count
    obtain ⟨isExpression, ha⟩ := forall_mem_cons.mp ha
    obtain ⟨⟨⟩, s₁, first, ran⟩ := bind_eq_ok ran
    rcases i with _ | i
    · obtain rfl := Option.some.inj child
      exact ⟨_, u, s₁, rfl, emitNode_expression isExpression ▸ first, onward_closed ran⟩
    · obtain ⟨value, s₂, found, ran⟩ := bind_eq_ok ran
      obtain ⟨ir, s₃, represented, ran⟩ := bind_eq_ok ran
      obtain ⟨rest, s₄, later, ran⟩ := bind_eq_ok ran
      cases ran
      obtain ⟨earlier, u₁, u₂, before, emitted, onward⟩ := ih (Nat.succ.inj count) ha child later
      refine ⟨(ir, .register value) :: earlier, u₁, u₂, ?_, emitted, onward⟩
      exact (bind_ok first).trans ((bind_ok found).trans
        ((bind_ok represented).trans (bind_ok before)))

theorem resumed_call {name : String} {parameters : List Ty}
    (count : arguments.length = parameters.length)
    (ha : ∀ a ∈ arguments, a.IsExpression) (child : arguments[i]? = some n)
    (ran : emitExpression frame (.mk id l (.expression type (.call name parameters)) arguments) u
      = .ok ((), v)) :
    Resumed frame (.mk id l (.expression type (.call name parameters)) arguments) i n u v := by
  obtain ⟨values, s, emitted, ran⟩ := bind_eq_ok ran
  obtain ⟨earlier, u₁, u₂, before, here, onward⟩ := resumed_arguments count ha child emitted
  exact ⟨u₁, u₂, bind_ok before, here, (onward.mono fun _ => False.elim).then (onward_closed ran)⟩

/-- The code of the right operand stands below a label that the outcome of the left one goes to. -/
theorem resumed_right (passes : kind.passes = some w) (ha : a.IsExpression) (hb : b.IsExpression)
    (ran : emitExpression frame (.mk id l (.expression type kind) [a, b]) u = .ok ((), v)) :
    ∃ s₁ u₂ u₃, emitNode frame a u = .ok ((), s₁) ∧
      ahead frame (.mk id l (.expression type kind) [a, b]) 1 u = .ok ((), u₂) ∧
      Continued ((s₁.exits.get a.id).list w) s₁ u₂ ∧ emitNode frame b u₂ = .ok ((), u₃) ∧
      Onward (fun _ => False) u₃ v := by
  rw [emitNode_expression ha, emitNode_expression hb]
  cases kind with
  | and =>
    cases passes
    obtain ⟨s₁, s₂, first, condition, continued, ran⟩ := whenTrue_eq_ok ran
    obtain ⟨⟨⟩, s₃, second, ran⟩ := bind_eq_ok ran
    exact ⟨s₁, s₂, s₃, first, bind_ok condition, continued, second, onward_closed ran⟩
  | or =>
    cases passes
    obtain ⟨⟨⟩, s₁, first, ran⟩ := bind_eq_ok ran
    obtain ⟨lists, s, taken, ran⟩ := bind_eq_ok ran
    obtain ⟨s₂, resumed, continued, rest₁⟩ := resume_eq_ok ran
    obtain ⟨⟨⟩, s₃, second, rest₂⟩ := bind_eq_ok rest₁
    have lead : ahead frame (.mk id l (.expression type .or) [a, b]) 1 u = .ok ((), s₂) :=
      (bind_ok first).trans ((bind_ok taken).trans resumed)
    obtain ⟨rfl, rfl⟩ := takeBranches_eq_ok taken
    exact ⟨s₁, s₂, s₃, first, lead, continued.of_eq rfl rfl, second, onward_closed rest₂⟩
  | _ => cases passes

theorem resumed_operand (passes : kind.passes = some w) (ha : a.IsExpression) (hb : b.IsExpression)
    (child : [a, b][i]? = some n)
    (ran : emitExpression frame (.mk id l (.expression type kind) [a, b]) u = .ok ((), v)) :
    Resumed frame (.mk id l (.expression type kind) [a, b]) i n u v := by
  rcases of_getElem?_two child with ⟨rfl, rfl⟩ | ⟨rfl, rfl⟩
  · cases kind with
    | and | or => exact resumed_expression rfl ha ran
    | _ => cases passes
  · obtain ⟨-, u₁, u₂, -, lead, -, emitted, rest⟩ := resumed_right passes ha hb ran
    exact ⟨u₁, u₂, lead, emitted, rest.mono fun _ => False.elim⟩

theorem resumed_arithmetic {operator : Arithmetic} (ha : a.IsExpression) (hb : b.IsExpression)
    (child : [a, b][i]? = some n)
    (ran : emitExpression frame (.mk id l (.expression type (.arithmetic operator)) [a, b]) u
      = .ok ((), v)) :
    Resumed frame (.mk id l (.expression type (.arithmetic operator)) [a, b]) i n u v := by
  rcases of_getElem?_two child with ⟨rfl, rfl⟩ | ⟨rfl, rfl⟩
  · exact resumed_expression rfl ha ran
  · obtain ⟨⟨⟩, s₁, first, ran⟩ := bind_eq_ok ran
    obtain ⟨value, s₂, found, ran⟩ := bind_eq_ok ran
    have left : emitValue frame a u = .ok (value, s₂) := (bind_ok first).trans found
    exact resumed_expression (bind_ok left) hb ran

theorem typeOf_state (h : typeOf n u = .ok (type, v)) : u = v := by
  unfold typeOf at h
  cases typed : n.type? with
  | none =>
    rw [typed] at h
    cases h
  | some type =>
    rw [typed] at h
    cases h
    rfl

theorem resumed_comparison {operator : Comparison} (ha : a.IsExpression) (hb : b.IsExpression)
    (child : [a, b][i]? = some n)
    (ran : emitExpression frame (.mk id l (.expression type (.comparison operator)) [a, b]) u
      = .ok ((), v)) :
    Resumed frame (.mk id l (.expression type (.comparison operator)) [a, b]) i n u v := by
  obtain ⟨leftType, s, known, ran⟩ := bind_eq_ok ran
  obtain rfl := typeOf_state known
  obtain ⟨rightType, s', known', ran⟩ := bind_eq_ok ran
  obtain rfl := typeOf_state known'
  rcases of_getElem?_two child with ⟨rfl, rfl⟩ | ⟨rfl, rfl⟩
  · exact resumed_expression rfl ha ran
  · obtain ⟨⟨⟩, s₁, first, ran⟩ := bind_eq_ok ran
    obtain ⟨value, s₂, found, ran⟩ := bind_eq_ok ran
    have left : emitValue frame a _ = .ok (value, s₂) := (bind_ok first).trans found
    exact resumed_expression (bind_ok left) hb ran

theorem resumed_choice (hc : c.IsExpression) (ha : a.IsExpression) (hb : b.IsExpression)
    (child : [c, a, b][i]? = some n)
    (ran : emitExpression frame (.mk id l (.expression type .conditional) [c, a, b]) u
      = .ok ((), v)) :
    Resumed frame (.mk id l (.expression type .conditional) [c, a, b]) i n u v := by
  rcases of_getElem?_three child with ⟨rfl, rfl⟩ | ⟨rfl, rfl⟩ | ⟨rfl, rfl⟩
  · exact resumed_expression rfl hc ran
  all_goals obtain ⟨s₁, s₂, -, condition, -, ran⟩ := whenTrue_eq_ok ran
  · exact resumed_expression (bind_ok condition) ha ran
  · obtain ⟨⟨⟩, s₃, second, ran⟩ := bind_eq_ok ran
    dsimp only at ran
    by_cases bool : type = .bool
    · rw [if_pos bool] at ran
      obtain ⟨lists, s₄, taken, ran⟩ := bind_eq_ok ran
      obtain ⟨s₅, resumed, -, ran⟩ := resume_eq_ok ran
      have lead : ahead frame (.mk id l (.expression type .conditional) [c, a, b]) 2 u
          = .ok ((), s₅) := by
        refine (bind_ok condition).trans ((bind_ok second).trans ?_)
        dsimp only
        rw [if_pos bool]
        exact (bind_ok taken).trans resumed
      exact resumed_expression lead hb ran
    · rw [if_neg bool] at ran
      obtain ⟨value, s₄, found, ran⟩ := bind_eq_ok ran
      obtain ⟨arm, s₅, closed, ran⟩ := bind_eq_ok ran
      obtain ⟨s₆, resumed, -, ran⟩ := resume_eq_ok ran
      have lead : ahead frame (.mk id l (.expression type .conditional) [c, a, b]) 2 u
          = .ok ((), s₆) := by
        refine (bind_ok condition).trans ((bind_ok second).trans ?_)
        dsimp only
        rw [if_neg bool]
        exact (bind_ok found).trans ((bind_ok closed).trans resumed)
      exact resumed_expression lead hb ran

end Expressions

/-! ### Statements -/

section Statements

variable {id : NodeId} {l : Location} {a b c : Node}

theorem resumed_when (hc : c.IsExpression) (ha : a.IsStatement) (child : [c, a][i]? = some n)
    (ran : emitStatement frame (.mk id l (.statement .conditional) [c, a]) u = .ok ((), v)) :
    Resumed frame (.mk id l (.statement .conditional) [c, a]) i n u v := by
  rcases of_getElem?_two child with ⟨rfl, rfl⟩ | ⟨rfl, rfl⟩
  · exact resumed_expression rfl hc ran
  · obtain ⟨s₁, s₂, -, condition, -, ran⟩ := whenTrue_eq_ok ran
    exact resumed_statement (bind_ok condition) ha ran

theorem resumed_either (hc : c.IsExpression) (ha : a.IsStatement) (hb : b.IsStatement)
    (child : [c, a, b][i]? = some n)
    (ran : emitStatement frame (.mk id l (.statement .conditional) [c, a, b]) u = .ok ((), v)) :
    Resumed frame (.mk id l (.statement .conditional) [c, a, b]) i n u v := by
  rcases of_getElem?_three child with ⟨rfl, rfl⟩ | ⟨rfl, rfl⟩ | ⟨rfl, rfl⟩
  · exact resumed_expression rfl hc ran
  all_goals obtain ⟨s₁, s₂, -, condition, -, ran⟩ := whenTrue_eq_ok ran
  · exact resumed_statement (bind_ok condition) ha ran
  · obtain ⟨⟨⟩, s₃, second, ran⟩ := bind_eq_ok ran
    obtain ⟨leaving, s₄, left, ran⟩ := bind_eq_ok ran
    obtain ⟨s₅, resumed, -, ran⟩ := resume_eq_ok ran
    have lead : ahead frame (.mk id l (.statement .conditional) [c, a, b]) 2 u = .ok ((), s₅) :=
      (bind_ok condition).trans ((bind_ok second).trans ((bind_ok left).trans resumed))
    exact resumed_statement lead hb ran

theorem resumed_loop (hc : c.IsExpression) (ha : a.IsStatement) (child : [c, a][i]? = some n)
    (ran : emitStatement frame (.mk id l (.statement .loop) [c, a]) u = .ok ((), v)) :
    Resumed frame (.mk id l (.statement .loop) [c, a]) i n u v := by
  obtain ⟨enter, s₁, jumped, ran⟩ := bind_eq_ok ran
  obtain ⟨s₂, entered, continued, ran⟩ := resume_eq_ok ran
  rcases of_getElem?_two child with ⟨rfl, rfl⟩ | ⟨rfl, rfl⟩
  · exact resumed_node ((bind_ok jumped).trans entered) (emitNode_expression hc ▸ ran)
      (forall_mem_singleton.mpr continued.within)
  · obtain ⟨s₃, s₄, -, condition, -, ran⟩ := whenTrue_eq_ok ran
    have lead : ahead frame (.mk id l (.statement .loop) [c, a]) 1 u = .ok ((), s₄) :=
      (bind_ok jumped).trans ((bind_ok entered).trans (bind_ok condition))
    have grown : Onward (fun _ => False) s₂ s₄ := onward_closed condition
    have older := continued.within.mono (Nat.le_refl _) grown.labels
    exact resumed_node lead (emitNode_statement ha ▸ ran) (forall_mem_singleton.mpr older)

variable {nodes : List Node}

/-- The statements that follow others are emitted one after the other. -/
theorem emitRest_split {before leaving : Leaving}
    (ran : emitRest frame before nodes u = .ok (leaving, v)) (child : nodes[i]? = some n) :
    ∃ earlier own s u₁ u₂ s', emitRest frame before (nodes.take i) u = .ok (earlier, s) ∧
      resume earlier.next s = .ok ((), u₁) ∧ emitStatement frame n u₁ = .ok ((), u₂) ∧
      takeLeaving n.id u₂ = .ok (own, s') ∧
      emitRest frame ⟨own.next, earlier.breaks ++ own.breaks, earlier.continues ++ own.continues⟩
        (nodes.drop (i + 1)) s' = .ok (leaving, v) := by
  induction nodes generalizing i u before with
  | nil => cases child
  | cons a nodes ih =>
    obtain ⟨s₂, resumed, -, ran⟩ := resume_eq_ok ran
    obtain ⟨⟨⟩, s₃, first, ran⟩ := bind_eq_ok ran
    obtain ⟨own, s₄, left, ran⟩ := bind_eq_ok ran
    rcases i with _ | i
    · obtain rfl := Option.some.inj child
      exact ⟨before, own, u, s₂, s₃, s₄, rfl, resumed, first, left, ran⟩
    · obtain ⟨earlier, own, s, u₁, u₂, s', lead, rest⟩ := ih ran child
      refine ⟨earlier, own, s, u₁, u₂, s', ?_, rest⟩
      obtain ⟨here, s₁, new, patched⟩ := bind_eq_ok resumed
      exact (bind_ok new).trans ((bind_ok patched).trans
        ((bind_ok first).trans ((bind_ok left).trans lead)))

theorem resumed_block (ha : ∀ a ∈ nodes, a.IsStatement) (child : nodes[i]? = some n)
    (ran : emitStatement frame (.mk id l (.statement .block) nodes) u = .ok ((), v)) :
    Resumed frame (.mk id l (.statement .block) nodes) i n u v := by
  rcases nodes with _ | ⟨a, nodes⟩
  · cases child
  obtain ⟨statement, ha⟩ := forall_mem_cons.mp ha
  rcases i with _ | i
  · obtain rfl := Option.some.inj child
    exact resumed_statement rfl statement ran
  · obtain ⟨⟨⟩, s₁, first, ran⟩ := bind_eq_ok ran
    obtain ⟨own, s₂, left, ran⟩ := bind_eq_ok ran
    obtain ⟨leaving, s₃, rest, ran⟩ := bind_eq_ok ran
    obtain ⟨earlier, own, s, u₁, u₂, s', lead, resumed, emitted, taken, later⟩ :=
      emitRest_split rest child
    have ahead : ahead frame (.mk id l (.statement .block) (a :: nodes)) (i + 1) u = .ok ((), u₁) :=
      (bind_ok first).trans ((bind_ok left).trans ((bind_ok lead).trans resumed))
    exact ⟨u₁, u₂, ahead, emitNode_statement (ha n (mem_of_getElem? (l := nodes) child)) ▸ emitted,
      (onward_closed taken).then ((onward_closed later).then (onward_closed ran))⟩

end Statements

/-- The emission of a node comes to each of its children. -/
theorem resumed_of_shape (shape : m.Shape) (child : m.children[i]? = some n)
    (ran : emitNode frame m u = .ok ((), v)) : Resumed frame m i n u v := by
  cases shape with
  | literal | identifier | declare | «break» | «continue» | «return» => cases child
  | call count ha => exact resumed_call count ha child ran
  | not ha =>
    obtain ⟨rfl, rfl⟩ := of_getElem?_one child
    exact resumed_expression rfl ha ran
  | and ha hb | or ha hb => exact resumed_operand rfl ⟨_, ha⟩ hb child ran
  | arithmetic ha hb => exact resumed_arithmetic ha hb child ran
  | comparison ha hb => exact resumed_comparison ha hb child ran
  | cast ha =>
    obtain ⟨rfl, rfl⟩ := of_getElem?_one child
    obtain ⟨source, s, known, ran⟩ := bind_eq_ok ran
    obtain rfl := typeOf_state known
    exact resumed_expression rfl ha ran
  | choice hc ha hb => exact resumed_choice hc ha hb child ran
  | declareWith ha =>
    obtain ⟨rfl, rfl⟩ := of_getElem?_one child
    obtain ⟨size, s₁, known, ran⟩ := bind_eq_ok ran
    obtain ⟨⟨⟩, s₂, written, ran⟩ := bind_eq_ok ran
    exact resumed_value ((bind_ok known).trans written) ha ran
  | assign ha =>
    obtain ⟨rfl, rfl⟩ := of_getElem?_one child
    exact resumed_value rfl ha ran
  | expression ha =>
    obtain ⟨rfl, rfl⟩ := of_getElem?_one child
    exact resumed_expression rfl ha ran
  | when hc ha => exact resumed_when hc ha child ran
  | either hc ha hb => exact resumed_either hc ha hb child ran
  | loop hc ha => exact resumed_loop hc ha child ran
  | give ha =>
    obtain ⟨rfl, rfl⟩ := of_getElem?_one child
    exact resumed_value rfl ha ran
  | block ha => exact resumed_block ha child ran

/-- What is ahead of a child keeps to the children before it. -/
theorem confined_ahead (shape : m.Shape) (child : m.children[i]? = some n)
    (earlier : HoldsAll nodes (m.children.take i)) : Confined nodes known (ahead frame m i) := by
  cases shape with
  | literal | identifier | declare | «break» | «continue» | «return» => cases child
  | @call _ _ _ _ _ arguments =>
    have : HoldsAll nodes (arguments.take i) := earlier
    exact .bind inferInstance fun _ => inferInstance
  | declareWith =>
    obtain ⟨rfl, rfl⟩ := of_getElem?_one child
    exact .bind inferInstance fun _ => inferInstance
  | not | cast | assign | expression | give =>
    obtain ⟨rfl, rfl⟩ := of_getElem?_one child
    exact .pure _
  | loop =>
    rcases of_getElem?_two child with ⟨rfl, rfl⟩ | ⟨rfl, rfl⟩
    · exact .bind inferInstance fun _ => inferInstance
    · obtain ⟨_, -⟩ := holdsAll_cons.mp earlier
      exact .bind inferInstance fun _ => inferInstance
  | and | or | arithmetic | comparison | when =>
    rcases of_getElem?_two child with ⟨rfl, rfl⟩ | ⟨rfl, rfl⟩
    · exact .pure _
    · obtain ⟨_, -⟩ := holdsAll_cons.mp earlier
      exact .bind inferInstance fun _ => inferInstance
  | choice | either =>
    rcases of_getElem?_three child with ⟨rfl, rfl⟩ | ⟨rfl, rfl⟩ | ⟨rfl, rfl⟩
    · exact .pure _
    · obtain ⟨_, -⟩ := holdsAll_cons.mp earlier
      exact .bind inferInstance fun _ => inferInstance
    · obtain ⟨_, earlier⟩ := holdsAll_cons.mp earlier
      obtain ⟨_, -⟩ := holdsAll_cons.mp earlier
      exact .bind inferInstance fun _ => inferInstance
  | @block _ _ nodes ha =>
    rcases nodes with _ | ⟨a, nodes⟩
    · cases child
    rcases i with _ | i
    · exact .pure _
    · obtain ⟨_, _⟩ := holdsAll_cons.mp earlier
      exact .bind inferInstance fun _ => inferInstance

end Resumed

end Emission

end Backpatch
