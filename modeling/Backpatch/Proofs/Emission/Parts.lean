import Backpatch.Proofs.Code.Target
import Backpatch.Proofs.Emission.Confined
import Backpatch.Proofs.Emission.Statement

/-!
# The emission of the nodes of a body

Every node of the body of a function is a part of it (`Frame.Part`): an expression that leaves a
value or a truth value or nothing, or a statement. Whatever it is, its emission appends open code
and leaves the holes of that code in the lists of the node, one list for each way out
(`Frame.Part.writes`).
-/

namespace Backpatch

open Emission Step List

/-! ## Ways out of a node -/

/-- The lists that are kept about a node. -/
inductive Way
  | onTrue
  | onFalse
  | next
  | breaks
  | continues
  deriving DecidableEq, Repr

/-- The holes through which control leaves a node in one of the ways. -/
def Exits.list (e : Exits) : Way → PatchList
  | .onTrue => e.onTrue
  | .onFalse => e.onFalse
  | .next => e.next
  | .breaks => e.breaks
  | .continues => e.continues

theorem Exits.quiet_iff {e : Exits} : e.Quiet ↔ ∀ w, e.list w = [] := by
  constructor
  · rintro ⟨hT, hF, hn, hb, hc⟩ w
    cases w <;> assumption
  · intro h
    exact ⟨h .onTrue, h .onFalse, h .next, h .breaks, h .continues⟩

/-- How control can leave a node: a truth value is left where it is true and where it is false, a
statement to what comes after it and to the loop around it, and a loop only to what comes after
it. -/
def NodeKind.ways : NodeKind → List Way
  | .expression .bool _ => [.onTrue, .onFalse]
  | .statement .loop => [.next]
  | .statement _ => [.next, .breaks, .continues]
  | _ => []

/-- The outcomes of a test as ways out of its node. -/
def Way.ofTest : Bool → Exit Way
  | true => .via .onTrue
  | false => .via .onFalse

/-- The exits of a statement as ways out of its node. -/
def Way.ofLeave : Leave → Exit Way
  | .next => .via .next
  | .break => .via .breaks
  | .continue => .via .continues

/-- The emission of a node of a body, whichever it is. -/
def Emission.emitNode (frame : Option Frame) (n : Node) : EmitM Unit :=
  match n.kind with
  | .expression _ _ => emitExpression frame n
  | _ => emitStatement frame n

variable {a b n : Node} {frame : Option Frame} {P : Node → Prop}

theorem Emission.emitNode_expression (h : n.IsExpression) :
    emitNode frame n = emitExpression frame n := by
  obtain ⟨type, typed⟩ := h
  obtain ⟨kind, is⟩ := Node.kind_of_type? typed
  unfold emitNode
  rw [is]

theorem Emission.emitNode_statement (h : n.IsStatement) :
    emitNode frame n = emitStatement frame n := by
  obtain ⟨kind, is⟩ := h
  unfold emitNode
  rw [is]

/-! ## Parts of a body -/

/-- The registers with the addresses of the variables are below the limit. -/
def Live.Low (live : Live) (limit : Nat) : Prop := ∀ q ∈ live, q.1 < limit

/-- The node is a part of a body that the frame belongs to. The functions that it calls are
known. -/
inductive Frame.Part (frame : Frame) (limit : Nat) (Q : Signatures) : Node → Prop
  | value {term : Term} {n : Node} {live : Live} (of : term.Of n) (low : live.Low limit)
      (all : term.All (Place.Reached frame live) Q) : Part frame limit Q n
  | test {test : Test} {n : Node} {live : Live} (of : test.Of n) (low : live.Low limit)
      (all : test.All (Place.Reached frame live) Q) : Part frame limit Q n
  | call {id : NodeId} {l : Location} {name : String} {parameters : List Ty} {nodes : List Node}
      {arguments : Arguments} {live : Live} (of : arguments.Of nodes parameters)
      (known : Q name .void arguments.types)
      (low : live.Low limit) (all : arguments.All (Place.Reached frame live) Q) :
      Part frame limit Q (.mk id l (.expression .void (.call name parameters)) nodes)
  | action {action : Action} {n : Node} {inLoop : Bool} {live : Live} (of : action.Of n)
      (low : live.Low limit)
      (scope : action.Scoped frame limit Q inLoop live) : Part frame limit Q n

theorem forall_mem_two (ha : P a) (hb : P b) : ∀ n ∈ [a, b], P n :=
  forall_mem_cons.mpr ⟨ha, forall_mem_singleton.mpr hb⟩

theorem forall_mem_three {c : Node} (ha : P a) (hb : P b) (hc : P c) : ∀ n ∈ [a, b, c], P n :=
  forall_mem_cons.mpr ⟨ha, forall_mem_two hb hc⟩

section Parts

variable {frame : Frame} {limit : Nat} {Q : Signatures} {live : Live}

variable {m : Node} {inLoop : Bool} {nodes : List Node} {action : Action}

theorem Arguments.part {arguments : Arguments} {types : List Ty} (of : arguments.Of nodes types)
    (low : live.Low limit) (all : arguments.All (Place.Reached frame live) Q) :
    ∀ n ∈ nodes, frame.Part limit Q n := by
  induction nodes generalizing arguments types with
  | nil => exact forall_mem_nil _
  | cons n ns ih =>
    cases of with
    | cons _ hx hrest => exact forall_mem_cons.mpr ⟨.value hx low all.1, ih hrest all.2⟩

theorem Test.part {test : Test} (of : test.Of m) (low : live.Low limit)
    (all : test.All (Place.Reached frame live) Q) : ∀ n ∈ m.children, frame.Part limit Q n := by
  cases of with
  | constant | read => exact forall_mem_nil _
  | call of => exact Arguments.part of low all.2
  | not hx | same _ hx => exact forall_mem_singleton.mpr (.test hx low all)
  | and hx hy | or hx hy => exact forall_mem_two (.test hx low all.1) (.test hy low all.2)
  | compare _ _ _ _ hx hy => exact forall_mem_two (.value hx low all.1) (.value hy low all.2)
  | choice hc hx hy =>
    exact forall_mem_three (.test hc low all.1) (.test hx low all.2.1) (.test hy low all.2.2)

theorem Term.part {term : Term} (of : term.Of m) (low : live.Low limit)
    (all : term.All (Place.Reached frame live) Q) : ∀ n ∈ m.children, frame.Part limit Q n := by
  cases of with
  | number | text | read => exact forall_mem_nil _
  | call _ _ _ of => exact Arguments.part of low all.2
  | truth of => exact Test.part of low all
  | arithmetic _ hx hy => exact forall_mem_two (.value hx low all.1) (.value hy low all.2)
  | cut _ hx | same _ _ _ hx => exact forall_mem_singleton.mpr (.value hx low all)
  | choice _ _ _ hc hx hy =>
    exact forall_mem_three (.test hc low all.1) (.value hx low all.2.1) (.value hy low all.2.2)

theorem Action.Scoped.low_declared (scope : action.Scoped frame limit Q inLoop live)
    (low : live.Low limit) : Live.Low (action.declared ++ live) limit := by
  cases action with
  | declare offset pointer initial =>
    have free : live.Free frame limit pointer offset := by
      cases initial with
      | none => exact scope
      | some value => exact scope.1
    exact forall_mem_cons.mpr ⟨free.low, low⟩
  | _ => exact low

theorem Actions.part {actions : Actions} (of : actions.Of nodes) (low : live.Low limit)
    (scope : actions.Scoped frame limit Q inLoop live) : ∀ n ∈ nodes, frame.Part limit Q n := by
  induction nodes generalizing actions live with
  | nil => exact forall_mem_nil _
  | cons n ns ih =>
    cases of with
    | cons hx hrest =>
      exact forall_mem_cons.mpr ⟨.action hx low scope.1,
        ih hrest (scope.1.low_declared low) scope.2⟩

theorem Action.part (of : action.Of m) (low : live.Low limit)
    (scope : action.Scoped frame limit Q inLoop live) : ∀ n ∈ m.children, frame.Part limit Q n := by
  cases of with
  | declare | «break» | «continue» | «return» => exact forall_mem_nil _
  | declareWith hx | give hx => exact forall_mem_singleton.mpr (.value hx low scope.2)
  | assign hx => exact forall_mem_singleton.mpr (.value hx low scope.2.2)
  | drop _ hx => exact forall_mem_singleton.mpr (.value hx low scope)
  | run of => exact forall_mem_singleton.mpr (.call of scope.1 low scope.2)
  | check hx => exact forall_mem_singleton.mpr (.test hx low scope)
  | when hc hx | loop hc hx => exact forall_mem_two (.test hc low scope.1) (.action hx low scope.2)
  | either hc hx hy =>
    exact forall_mem_three (.test hc low scope.1) (.action hx low scope.2.1)
      (.action hy low scope.2.2)
  | block of => exact Actions.part of low scope

theorem Frame.Part.child (h : frame.Part limit Q m) : ∀ n ∈ m.children, frame.Part limit Q n := by
  cases h with
  | value of low all => exact Term.part of low all
  | test of low all => exact Test.part of low all
  | call of known low all => exact Arguments.part of low all
  | action of low scope => exact Action.part of low scope

theorem Frame.Part.below (h : frame.Part limit Q m) : ∀ n ∈ m.postorder, frame.Part limit Q n :=
  Node.forall_mem_postorder (fun _ part => part.child) m h

end Parts

/-! ## Code that ends in a branch -/

namespace Step

variable {V W : Type}

def isBranch : Step W → Bool
  | line _ => false
  | jump _ | branch .. => true

theorem target?_of_isBranch {step : Step W} (h : step.isBranch = true) (ρ : W → Target) :
    ∃ t, (step.instr ρ).target? .first = some t := by
  cases step with
  | line i => cases h
  | jump exit | branch condition onTrue onFalse => exact ⟨_, rfl⟩

/-- The last line goes elsewhere. -/
def Ended (steps : List (Step W)) : Prop :=
  ∃ before last, steps = before ++ [last] ∧ last.isBranch = true

variable {ys : List (Step W)}

theorem Ended.append (h : Ended ys) (xs : List (Step W)) : Ended (xs ++ ys) := by
  obtain ⟨before, last, rfl, branch⟩ := h
  exact ⟨xs ++ before, last, (append_assoc ..).symm, branch⟩

theorem Ended.cons (h : Ended ys) (step : Step W) : Ended (step :: ys) := h.append [step]

theorem Ended.map_bind {steps : List (Step V)} (h : Ended steps) (σ : V → Exit W) :
    Ended (steps.map (bind σ)) := by
  obtain ⟨before, last, rfl, branch⟩ := h
  refine ⟨before.map (bind σ), last.bind σ, by rw [map_append, map_singleton], ?_⟩
  cases last <;> first | rfl | cases branch

end Step

theorem TermCode.ended_nonzero (c : TermCode) : Step.Ended c.nonzero.steps :=
  Step.Ended.append ⟨[_], _, rfl, rfl⟩ _

/-- The code of a test ends in a branch, so that the test can only be left by its exits. -/
theorem Test.ended_code (frame : Frame) (test : Test) (s : NameSupply) :
    Step.Ended (test.code frame s).steps := by
  induction size : sizeOf test using Nat.strongRecOn generalizing test s with
  | _ size ih =>
    subst size
    -- The last operand, where there is one, comes last.
    cases test with
    | constant value => exact ⟨[], _, rfl, rfl⟩
    | read place | call name arguments => exact TermCode.ended_nonzero _
    | not operand => exact (ih _ (by rw [Test.not.sizeOf_spec]; omega) operand s rfl).map_bind _
    | and left right =>
      exact ((ih _ (by rw [Test.and.sizeOf_spec]; omega) right _ rfl).cons _).append _
    | or left right =>
      exact ((ih _ (by rw [Test.or.sizeOf_spec]; omega) right _ rfl).cons _).append _
    | compare predicate left right => exact Step.Ended.append ⟨[_], _, rfl, rfl⟩ _
    | same operand => exact ih _ (by rw [Test.same.sizeOf_spec]; omega) operand s rfl
    | choice condition thenTest elseTest =>
      exact ((ih _ (by rw [Test.choice.sizeOf_spec]; omega) elseTest _ rfl).cons _).append _

/-! ## What a part writes -/

/-- From `s` to `s'`, the emission of the node has appended open code, whose holes are in the lists
of the node. About other nodes nothing is kept. -/
structure Emission.Wrote (n : Node) (s s' : Emission) (steps : List (Step Way))
    (globals : List Global) : Prop where
  buffer : s'.buffer = s.buffer.append (steps.map (instr fun _ => none)) globals
  straight : AllStraight steps
  lists : ∀ w, (s'.exits.get n.id).list w = records w s.buffer.lines.size steps
  others : ∀ id, id ≠ n.id → (s'.exits.get id).Quiet
  ways : ∀ w, w ∉ n.kind.ways → (s'.exits.get n.id).list w = []
  /-- A truth value can only be left by its exits. -/
  ended : n.type? = some .bool → Step.Ended steps

/-- The emission of the node succeeds where nothing is kept about any node. -/
def Node.Writes (frame : Frame) (n : Node) : Prop :=
  ∀ s : Emission, s.exits.Quiet → ∃ s' steps globals, emitNode (some frame) n s = .ok ((), s') ∧
    Wrote n s s' steps globals

theorem NodeKind.ways_of_bool (h : n.type? = some .bool) : n.kind.ways = [.onTrue, .onFalse] := by
  obtain ⟨kind, is⟩ := Node.kind_of_type? h
  rw [is]
  rfl

theorem map_instr_ways {V : Type} {σ : V → Exit Way} (h : ∀ v, ∃ w, σ v = .via w)
    (steps : List (Step V)) :
    (steps.map (Step.bind σ)).map (instr fun _ => none)
      = steps.map (instr fun _ => none) := by
  rw [map_instr_bind]
  congr 2
  funext v
  obtain ⟨w, eq⟩ := h v
  rw [eq]
  rfl

section Writes

variable {frame : Frame} {limit : Nat} {n : Node} {P : Place → Prop} {Q : Signatures}

/-- A test is left by the lists for its outcomes. -/
theorem Test.Emitted.writes {test : Test} (h : test.Emitted frame n) (of : test.Of n)
    (all : test.All P Q) : n.Writes frame := by
  intro s quiet
  obtain ⟨t', quiet', ran⟩ := h s.names s.buffer [] [] s.exits quiet
  rw [CodeBuffer.append_nil] at ran
  obtain ⟨⟨⟩, s', emitted, taken⟩ := bind_eq_ok ran
  obtain ⟨lists, rest⟩ := takeBranches_eq_ok taken
  injection lists with onTrue onFalse
  injection rest with names buffer exits
  -- What is left when the lists are taken was there before.
  have left := quiet' n.id
  rw [exits, ExitTable.get_set_self] at left
  obtain ⟨-, -, next, breaks, continues⟩ := left
  let steps := (test.code frame s.names).steps.map (Step.bind Way.ofTest)
  have others : ∀ w, w ≠ .onTrue → w ≠ .onFalse →
      records w s.buffer.lines.size steps = [] := by
    intro w notTrue notFalse
    refine records_bind_eq_nil (fun b => ?_) _ _
    cases b
    · exact fun eq => notFalse (Exit.via.inj eq).symm
    · exact fun eq => notTrue (Exit.via.inj eq).symm
  have ended : Step.Ended steps := (test.ended_code frame s.names).map_bind _
  refine ⟨s', steps, (test.code frame s.names).globals, ?_, ?_, ?_, ?_, ?_, ?_, fun _ => ended⟩
  · rw [emitNode_expression ⟨_, of.type?⟩]
    exact emitted
  · rw [← buffer, map_instr_ways fun b => by cases b <;> exact ⟨_, rfl⟩]
    rfl
  · exact Step.allFulfil_map_bind.mpr (test.lines_code covers_straight.toCovers all s.names)
  · intro w
    cases w with
    | onTrue =>
      rw [records_bind (v := true) fun b => by cases b <;> simp [Way.ofTest]]
      exact onTrue.symm
    | onFalse =>
      rw [records_bind (v := false) fun b => by cases b <;> simp [Way.ofTest]]
      exact onFalse.symm
    | next => exact next.trans (others _ (by decide) (by decide)).symm
    | breaks => exact breaks.trans (others _ (by decide) (by decide)).symm
    | continues => exact continues.trans (others _ (by decide) (by decide)).symm
  · intro id ne
    have kept := quiet' id
    rwa [exits, ExitTable.get_set, if_neg ne] at kept
  · intro w absent
    rw [NodeKind.ways_of_bool of.type?] at absent
    cases w with
    | onTrue | onFalse => exact absurd absent (by decide)
    | next => exact next
    | breaks => exact breaks
    | continues => exact continues

/-- Code without holes leaves no lists. -/
theorem Node.writes_of_closed (number : n.type? ≠ some .bool)
      (closed : ∀ s b xs gs t, ExitTable.Quiet t →
      ∃ (t' : ExitTable) (names : NameSupply) (steps : List (Step Empty)) (globals : List Global),
        t'.Quiet ∧ AllStraight steps ∧
      emitNode (some frame) n ⟨s, CodeBuffer.append b xs gs, t⟩
        = .ok ((), ⟨names, b.append (xs ++ steps.map (instr noExits)) (gs ++ globals),
          t'⟩)) :
    n.Writes frame := by
  intro s quiet
  obtain ⟨t', names, steps, globals, quiet', straight, ran⟩ :=
    closed s.names s.buffer [] [] s.exits quiet
  rw [CodeBuffer.append_nil] at ran
  have empty : ∀ w, (t'.get n.id).list w = [] := Exits.quiet_iff.mp (quiet' n.id)
  refine ⟨_, steps.map lift, globals, ran, ?_, ?_, ?_, ?_, ?_, fun bool => absurd bool number⟩
  · rw [map_instr_lift]
    rfl
  · exact Step.allFulfil_map_lift.mpr straight
  · intro w
    rw [records_lift]
    exact empty w
  · exact fun id _ => quiet' id
  · exact fun w _ => empty w

variable {action : Action} {term : Term} {w : Leave}

/-- The node of a term is an expression. -/
theorem Term.Of.typed (h : term.Of n) : ∃ type, n.type? = some type := by
  cases h with
  | truth of => exact ⟨_, of.type?⟩
  | _ => exact ⟨_, rfl⟩

theorem Term.Emitted.writes (h : term.Emitted frame n) (of : term.Of n)
    (all : term.All P Q) (numeral : term.isNumeral = true) : n.Writes frame := by
  refine Node.writes_of_closed (of.type?_of_isNumeral numeral) fun s b xs gs t quiet => ?_
  obtain ⟨t', quiet', ran⟩ := h.expression (of.type?_of_isNumeral numeral) s b xs gs t quiet
  rw [emitNode_expression of.typed]
  exact ⟨t', _, _, _, quiet', term.lines_code covers_straight.toCovers all s, ran⟩

/-- A call for its effect is left by nothing. -/
theorem Arguments.Emitted.writes {arguments : Arguments} {nodes : List Node} {parameters : List Ty}
    {name : String} {id : NodeId} {l : Location} (h : arguments.Emitted frame nodes parameters)
    (all : arguments.All P Q) (clean : Clean name) :
    (Node.mk id l (.expression .void (.call name parameters)) nodes).Writes frame := by
  refine Node.writes_of_closed (by simp [Node.type?, Node.kind]) fun s b xs gs t quiet => ?_
  obtain ⟨t', quiet', ran⟩ := h.call clean id l s b xs gs t quiet
  refine ⟨t', _, _, _, quiet', ?_, ran⟩
  exact Step.allFulfil_append.mpr ⟨arguments.lines_code covers_straight.toCovers all s,
    by simp [Instr.Straight, Instr.isStraight]⟩

/-- No jump of a loop leaves the loop around it. -/
theorem records_loop {condition : Test} {body : Action} (h : w ≠ .next) (s : NameSupply)
    (start : Nat) :
    records w start (Action.code frame (.loop condition body) s).steps = [] := by
  have inside : ∀ check v, backTo check v ≠ .via w := by
    intro check v eq
    cases v with
    | «break» => exact h (Exit.via.inj eq).symm
    | next | «continue» => cases eq
  have outside : ∀ l v, orNext l v ≠ .via w := by
    intro l v eq
    cases v with
    | true => cases eq
    | false => exact h (Exit.via.inj eq).symm
  rw [Action.code]
  simp [records_append, records, slots, records_bind_eq_nil (outside _),
    records_bind_eq_nil (inside _)]

/-- The node of an action is a statement, and a loop only if the action is one. -/
theorem Action.Of.kind (h : action.Of n) : ∃ kind, n.kind = .statement kind ∧
    (kind ≠ .loop ∨ ∃ condition body, action = .loop condition body) := by
  cases h with
  | loop => exact ⟨_, rfl, .inr ⟨_, _, rfl⟩⟩
  | _ => exact ⟨_, rfl, .inl (by simp)⟩

/-- An action has holes only for the ways out of its node. -/
theorem Action.Of.records_eq_nil (h : action.Of n) {way : Way} (eq : Way.ofLeave w = .via way)
    (absent : way ∉ n.kind.ways) (s : NameSupply) (start : Nat) :
    records w start (action.code frame s).steps = [] := by
  obtain ⟨kind, is, other | ⟨condition, body, rfl⟩⟩ := h.kind
  · have all : n.kind.ways = [.next, .breaks, .continues] := by
      rw [is]
      cases kind <;> first | rfl | exact absurd rfl other
    rw [all] at absent
    cases w <;> cases eq <;> exact absurd absent (by decide)
  · refine records_loop ?_ s start
    rintro rfl
    cases eq
    refine absent ?_
    rw [is]
    cases kind <;> simp [NodeKind.ways]

/-- A statement is left by the lists for its exits. -/
theorem Action.Emitted.writes (h : action.Emitted frame n) (of : action.Of n) {inLoop : Bool}
    {live : Live} (scope : action.Scoped frame limit Q inLoop live) : n.Writes frame := by
  intro s quiet
  obtain ⟨t', quiet', ran⟩ := h s.names s.buffer [] [] s.exits quiet
  rw [CodeBuffer.append_nil] at ran
  obtain ⟨⟨⟩, s', emitted, taken⟩ := bind_eq_ok ran
  obtain ⟨lists, rest⟩ := takeLeaving_eq_ok taken
  injection lists with next breaks continues
  injection rest with names buffer exits
  -- What is left when the lists are taken was there before.
  have left := quiet' n.id
  rw [exits, ExitTable.get_set_self] at left
  obtain ⟨onTrue, onFalse, -, -, -⟩ := left
  let steps := (action.code frame s.names).steps.map (Step.bind Way.ofLeave)
  have others : ∀ w, (∀ v, Way.ofLeave v ≠ .via w) →
      records w s.buffer.lines.size steps = [] :=
    fun w absent => records_bind_eq_nil absent _ _
  obtain ⟨kind, is, -⟩ := of.kind
  have untyped : n.type? ≠ some .bool := by
    unfold Node.type?
    rw [is]
    exact (Option.some_ne_none _).symm
  refine ⟨s', steps, (action.code frame s.names).globals, ?_, ?_, ?_, ?_, ?_, ?_, fun bool =>
    absurd bool untyped⟩
  · unfold emitNode
    rw [is]
    exact emitted
  · rw [← buffer, map_instr_ways fun v => by cases v <;> exact ⟨_, rfl⟩]
    rfl
  · exact Step.allFulfil_map_bind.mpr (action.lines_code covers_straight scope s.names)
  · intro w
    cases w with
    | onTrue => exact onTrue.trans (others _ fun v => by cases v <;> simp [Way.ofLeave]).symm
    | onFalse => exact onFalse.trans (others _ fun v => by cases v <;> simp [Way.ofLeave]).symm
    | next =>
      rw [records_bind (v := Leave.next) fun v => by cases v <;> simp [Way.ofLeave]]
      exact next.symm
    | breaks =>
      rw [records_bind (v := Leave.break) fun v => by cases v <;> simp [Way.ofLeave]]
      exact breaks.symm
    | continues =>
      rw [records_bind (v := Leave.continue) fun v => by cases v <;> simp [Way.ofLeave]]
      exact continues.symm
  · intro id ne
    have kept := quiet' id
    rwa [exits, ExitTable.get_set, if_neg ne] at kept
  · intro w absent
    cases w with
    | onTrue => exact onTrue
    | onFalse => exact onFalse
    | next => exact next.symm.trans (of.records_eq_nil rfl absent _ _)
    | breaks => exact breaks.symm.trans (of.records_eq_nil rfl absent _ _)
    | continues => exact continues.symm.trans (of.records_eq_nil rfl absent _ _)

/-- Every part of a body is emitted, and leaves the holes of its code in its lists. -/
theorem Frame.Part.writes (generated : frame.Generated) (returns : frame.returnType.ir? ≠ none)
    (part : frame.Part limit cleanNames n) : n.Writes frame := by
  cases part with
  | @value term n _ of low all =>
    cases term with
    | truth test =>
      cases of with
      | truth of => exact (Test.emitted generated of all).writes of all
    | _ => exact (Term.emitted generated of all).writes of all rfl
  | test of low all => exact (Test.emitted generated of all).writes of all
  | call of known low all => exact (Arguments.emitted generated of all).writes all known
  | action of low scope => exact (Action.emitted generated returns of scope).writes of scope

end Writes

end Backpatch
