import Backpatch.Proofs.Output.Regions

/-!
# Wiring of loops

The holes through which a statement is left go on in the lists of the statement around it, or are
filled there with one label. Those of a `break` and a `continue` go on up to the loop: a `continue`
goes where the loop begins its next round, and a `break` where its condition goes when it is false
(`Program.compile_wires_loops`).
-/

namespace Backpatch

open Emission List

theorem Node.IsStatement.not_expression {n : Node} (statement : n.IsStatement)
    (expression : n.IsExpression) : False := by
  obtain ⟨kind, is⟩ := statement
  obtain ⟨type, typed⟩ := expression
  obtain ⟨kind', is'⟩ := Node.kind_of_type? typed
  cases is.symm.trans is'

namespace Emission

/-- The lists of a statement. -/
def leaving (s : Emission) (n : Node) : Leaving :=
  ⟨(s.exits.get n.id).next, (s.exits.get n.id).breaks, (s.exits.get n.id).continues⟩

/-- The holes have been filled with one label, which stands outside the lines between `u` and
`u'`. -/
def Goes (u u' : Emission) (records : PatchList) (code : CodeBuffer) : Prop :=
  ∃ l i, code.label? i = some l ∧ ¬Spans u u' i ∧ ∀ r ∈ records, code.target? r = some (some l)

/-- Of the lists of a statement between `u` and `u'`, those for the loop around it are passed on,
and so is the other one unless its holes are filled. -/
structure Passed (u u' : Emission) (given taken : Leaving) (code : CodeBuffer) : Prop where
  next : given.next ⊆ taken.next ∨ Goes u u' given.next code
  breaks : given.breaks ⊆ taken.breaks
  continues : given.continues ⊆ taken.continues

/-- The emission of `m` from `u` to `v` has come to its `i`-th child `n`, and has taken the lists of
the child. -/
def Handed (frame : Option Frame) (m : Node) (i : Nat) (n : Node) (u v : Emission) : Prop :=
  ∃ u₁ u₂, ahead frame m i u = .ok ((), u₁) ∧ emitNode frame n u₁ = .ok ((), u₂) ∧
    Passed u₁ u₂ (u₂.leaving n) (v.leaving m) v.buffer

/-! ## Lists that are passed on -/

section Passing

variable {frame : Option Frame} {m n : Node} {i : Nat} {u u' v : Emission} {known : Label → Prop}

variable {s s' : Emission} {records : PatchList} {after lists before : Leaving} {nodes : List Node}

theorem Goes.onward (h : Goes u u' records s.buffer) (later : Onward known s s') :
    Goes u u' records s'.buffer := by
  obtain ⟨l, j, found, out, targets⟩ := h
  refine ⟨l, j, ?_, out, fun r mem => later.kept (targets r mem)⟩
  rw [later.labelled (CodeBuffer.lt_of_label? found), found]

theorem Goes.mono {t t' : Emission} {records' : PatchList} {code : CodeBuffer}
    (h : Goes u u' records code)
    (spans : ∀ i, Spans t t' i → Spans u u' i) (fewer : records' ⊆ records) :
    Goes t t' records' code := by
  obtain ⟨l, j, found, out, targets⟩ := h
  exact ⟨l, j, found, fun span => out (spans j span), fun r mem => targets r (fewer mem)⟩

theorem Continued.goes (h : Continued records s s')
    (above : u'.buffer.lines.size ≤ s.buffer.lines.size) : Goes u u' records s'.buffer := by
  refine ⟨_, _, h.label, fun span => absurd span.2 (Nat.not_lt.mpr above), fun r mem => ?_⟩
  rw [h.targets, if_pos mem]

theorem leaving_of_take (taken : takeLeaving n.id s = .ok (lists, s')) :
    lists = s.leaving n ∧ s'.buffer.lines.size = s.buffer.lines.size := by
  obtain ⟨listed, rest⟩ := takeLeaving_eq_ok taken
  exact ⟨listed, rest ▸ rfl⟩

theorem leaving_of_set (set : setLeaving n.id lists s = .ok ((), s')) :
    s'.leaving n = lists ∧ s'.buffer = s.buffer := by
  cases set
  refine ⟨?_, rfl⟩
  unfold leaving
  rw [ExitTable.get_set_self]

/-- What becomes of the lists of the statements that have been emitted when others follow. -/
theorem passed_rest (above : u'.buffer.lines.size ≤ s.buffer.lines.size)
    (ran : emitRest frame before nodes s = .ok (after, s')) :
    Passed u u' before after s'.buffer := by
  induction nodes generalizing u u' before s with
  | nil =>
    cases ran
    exact ⟨.inl (List.Subset.refl _), List.Subset.refl _, List.Subset.refl _⟩
  | cons a nodes ih =>
    obtain ⟨s₂, -, continued, ran⟩ := resume_eq_ok ran
    have later : Onward (fun _ => False) s₂ s' := onward_closed ran
    obtain ⟨⟨⟩, s₃, first, ran⟩ := bind_eq_ok ran
    obtain ⟨own, s₄, left, ran⟩ := bind_eq_ok ran
    have rest := ih (Nat.le_refl _) ran (u := s₂)
    refine ⟨.inr ((continued.goes above).onward later), ?_, ?_⟩
    · exact List.Subset.trans (subset_append_left _ _) rest.breaks
    · exact List.Subset.trans (subset_append_left _ _) rest.continues

section Statements

variable {id : NodeId} {l : Location} {a b c : Node}

theorem handed_block {nodes : List Node} (ha : ∀ a ∈ nodes, a.IsStatement)
    (child : nodes[i]? = some n)
    (ran : emitStatement frame (.mk id l (.statement .block) nodes) u = .ok ((), v)) :
    Handed frame (.mk id l (.statement .block) nodes) i n u v := by
  rcases nodes with _ | ⟨a, nodes⟩
  · cases child
  obtain ⟨statement, ha⟩ := forall_mem_cons.mp ha
  obtain ⟨⟨⟩, s₁, first, ran⟩ := bind_eq_ok ran
  obtain ⟨own, s₂, left, ran⟩ := bind_eq_ok ran
  obtain ⟨after, s₃, rest, ran⟩ := bind_eq_ok ran
  obtain ⟨listed, buffer⟩ := leaving_of_set (n := .mk id l (.statement .block) (a :: nodes)) ran
  unfold Handed
  rw [listed, buffer]
  rcases i with _ | i
  · obtain rfl := Option.some.inj child
    obtain ⟨rfl, size⟩ := leaving_of_take left
    exact ⟨u, s₁, rfl, emitNode_statement statement ▸ first,
      passed_rest (Nat.le_of_eq size.symm) rest⟩
  · obtain ⟨earlier, own, s, u₁, u₂, s', lead, resumed, emitted, taken, later⟩ :=
      emitRest_split rest child
    obtain ⟨rfl, size⟩ := leaving_of_take taken
    have passed := passed_rest (u := u₁) (Nat.le_of_eq size.symm) later
    refine ⟨u₁, u₂, ?_, emitNode_statement (ha n (mem_of_getElem? (l := nodes) child)) ▸ emitted,
      passed.next, ?_, ?_⟩
    · exact (bind_ok first).trans ((bind_ok left).trans ((bind_ok lead).trans resumed))
    · exact List.Subset.trans (subset_append_right _ _) passed.breaks
    · exact List.Subset.trans (subset_append_right _ _) passed.continues

theorem handed_when (ha : a.IsStatement)
    (ran : emitStatement frame (.mk id l (.statement .conditional) [c, a]) u = .ok ((), v)) :
    Handed frame (.mk id l (.statement .conditional) [c, a]) 1 a u v := by
  obtain ⟨s₁, s₂, -, condition, -, ran⟩ := whenTrue_eq_ok ran
  obtain ⟨⟨⟩, s₃, second, ran⟩ := bind_eq_ok ran
  obtain ⟨own, s₄, left, ran⟩ := bind_eq_ok ran
  obtain ⟨listed, -⟩ := leaving_of_set (n := .mk id l (.statement .conditional) [c, a]) ran
  obtain ⟨rfl, -⟩ := leaving_of_take left
  refine ⟨s₂, s₃, bind_ok condition, emitNode_statement ha ▸ second, ?_⟩
  rw [listed]
  exact ⟨.inl (subset_append_right _ _), List.Subset.refl _, List.Subset.refl _⟩

theorem handed_either (ha : a.IsStatement) (hb : b.IsStatement)
    (ran : emitStatement frame (.mk id l (.statement .conditional) [c, a, b]) u = .ok ((), v)) :
    Handed frame (.mk id l (.statement .conditional) [c, a, b]) 1 a u v ∧
      Handed frame (.mk id l (.statement .conditional) [c, a, b]) 2 b u v := by
  obtain ⟨s₁, s₂, -, condition, -, ran⟩ := whenTrue_eq_ok ran
  obtain ⟨⟨⟩, s₃, second, ran⟩ := bind_eq_ok ran
  obtain ⟨own, s₄, left, ran⟩ := bind_eq_ok ran
  obtain ⟨s₅, resumed, -, ran⟩ := resume_eq_ok ran
  obtain ⟨⟨⟩, s₆, third, ran⟩ := bind_eq_ok ran
  obtain ⟨own', s₇, left', ran⟩ := bind_eq_ok ran
  obtain ⟨listed, -⟩ := leaving_of_set (n := .mk id l (.statement .conditional) [c, a, b]) ran
  have lead : ahead frame (.mk id l (.statement .conditional) [c, a, b]) 2 u = .ok ((), s₅) :=
    (bind_ok condition).trans ((bind_ok second).trans ((bind_ok left).trans resumed))
  obtain ⟨rfl, -⟩ := leaving_of_take left
  obtain ⟨rfl, -⟩ := leaving_of_take left'
  refine ⟨⟨s₂, s₃, bind_ok condition, emitNode_statement ha ▸ second, ?_⟩,
    ⟨s₅, s₆, lead, emitNode_statement hb ▸ third, ?_⟩⟩
  · rw [listed]
    exact ⟨.inl (subset_append_left _ _), subset_append_left _ _, subset_append_left _ _⟩
  · rw [listed]
    exact ⟨.inl (subset_append_right _ _), subset_append_right _ _, subset_append_right _ _⟩

end Statements

/-- What a statement is in is a statement, and takes its lists unless it is a loop. -/
theorem handed_of_shape (shape : m.Shape) (plain : m.kind ≠ .statement .loop)
    (child : m.children[i]? = some n)
    (statement : n.IsStatement) (ran : emitNode frame m u = .ok ((), v)) :
    m.IsStatement ∧ Handed frame m i n u v := by
  have no := statement.not_expression
  cases shape with
  | call count ha => exact (no (ha n (mem_of_getElem? child))).elim
  | not ha | cast ha | declareWith ha | assign ha | expression ha | give ha =>
    obtain ⟨rfl, rfl⟩ := of_getElem?_one child
    exact (no ha).elim
  | and ha hb | or ha hb =>
    rcases of_getElem?_two child with ⟨rfl, rfl⟩ | ⟨rfl, rfl⟩
    · exact (no ⟨_, ha⟩).elim
    · exact (no hb).elim
  | arithmetic ha hb | comparison ha hb =>
    rcases of_getElem?_two child with ⟨rfl, rfl⟩ | ⟨rfl, rfl⟩
    · exact (no ha).elim
    · exact (no hb).elim
  | choice hc ha hb =>
    rcases of_getElem?_three child with ⟨rfl, rfl⟩ | ⟨rfl, rfl⟩ | ⟨rfl, rfl⟩
    · exact (no hc).elim
    · exact (no ha).elim
    · exact (no hb).elim
  | when hc ha =>
    rcases of_getElem?_two child with ⟨rfl, rfl⟩ | ⟨rfl, rfl⟩
    · exact (no hc).elim
    · exact ⟨⟨_, rfl⟩, handed_when ha ran⟩
  | either hc ha hb =>
    rcases of_getElem?_three child with ⟨rfl, rfl⟩ | ⟨rfl, rfl⟩ | ⟨rfl, rfl⟩
    · exact (no hc).elim
    · exact ⟨⟨_, rfl⟩, (handed_either ha hb ran).1⟩
    · exact ⟨⟨_, rfl⟩, (handed_either ha hb ran).2⟩
  | loop hc ha => exact absurd rfl plain
  | block ha => exact ⟨⟨_, rfl⟩, handed_block ha child ran⟩
  | literal | identifier | declare | «break» | «continue» | «return» => cases child

end Passing

/-! ## Loops -/

/-- The emission of a loop from `u` to `v`, with that of its condition from `c` to `c'` and that of
its body from `b` to `b'`. -/
structure LoopRun (frame : Option Frame) (loop : Node) (u v : Emission) where
  condition : Node
  body : Node
  c : Emission
  c' : Emission
  b : Emission
  b' : Emission
  kind : loop.kind = .statement .loop
  children : loop.children = [condition, body]
  statement : body.IsStatement
  leadCondition : ahead frame loop 0 u = .ok ((), c)
  ranCondition : emitNode frame condition c = .ok ((), c')
  leadBody : ahead frame loop 1 u = .ok ((), b)
  ranBody : emitNode frame body b = .ok ((), b')

/-- What the loop has filled when it is emitted, and what it has left open. -/
structure LoopRun.Closes {frame : Option Frame} {loop : Node} {u v : Emission}
    (run : LoopRun frame loop u v) (check : Label) : Prop where
  entered : v.buffer.JumpsTo u.buffer.lines.size (some check)
  label : v.buffer.label? (u.buffer.lines.size + 1) = some check
  above : u.buffer.lines.size + 1 < run.b.buffer.lines.size
  again : ∀ r ∈ (run.b'.leaving run.body).next, v.buffer.target? r = some (some check)
  continued : ∀ r ∈ (run.b'.leaving run.body).continues, v.buffer.target? r = some (some check)
  left : (v.leaving loop).next = (run.c'.exits.get run.condition.id).onFalse
    ++ (run.b'.leaving run.body).breaks

variable {s u s' s₁ s₂ : Emission}

theorem jump_eq_ok {r : PatchRecord} (h : jump s = .ok (r, s')) :
    r = ⟨s.buffer.lines.size, .first⟩ ∧ s'.names = s.names ∧ s'.exits = s.exits ∧
      s'.buffer.lines.size = s.buffer.lines.size + 1 ∧
        s'.buffer.JumpsTo s.buffer.lines.size none := by
  cases h
  have lines : (s.buffer.push (.jump none)).lines = s.buffer.lines.push ⟨s.buffer.level,
    .jump none⟩ := rfl
  refine ⟨rfl, rfl, rfl, ?_, ?_⟩
  · exact (congrArg Array.size lines).trans (Array.size_push _)
  · unfold CodeBuffer.JumpsTo
    rw [lines, Array.getElem?_push_size]
    rfl

/-- A jump whose hole has been filled. -/
theorem Onward.jumpsTo {known : Label → Prop} (h : Onward known s s') {i : Nat} {t : Target}
    (jump : s.buffer.JumpsTo i t) {l : Label}
    (filled : s'.buffer.target? ⟨i, .first⟩ = some (some l)) :
    s'.buffer.JumpsTo i (some l) := by
  have lasting : Instr.Lasting fun i => ∃ t, i = .jump t := by
    rintro _ (_ | _) l ⟨t, rfl⟩ <;> exact ⟨_, rfl⟩
  obtain ⟨line, found, is⟩ := Option.map_eq_some_iff.mp jump
  obtain ⟨line, found, t', is⟩ := h.lasts lasting ⟨line, found, t, is⟩
  have jump : s'.buffer.JumpsTo i t' := Option.map_eq_some_iff.mpr ⟨line, found, is⟩
  obtain rfl : t' = some l := Option.some.inj (jump.target?.symm.trans filled)
  exact jump

/-- A loop begins with a jump to the label behind it. -/
theorem loop_opened {enter : PatchRecord} (jumped : jump u = .ok (enter, s₁))
    (entered : resume [enter] s₁ = .ok ((), s₂)) (continued : Continued [enter] s₁ s₂) :
    s₂.buffer.JumpsTo u.buffer.lines.size (some (.numbered s₁.names.labels)) ∧
      s₂.buffer.label? (u.buffer.lines.size + 1) = some (.numbered s₁.names.labels) ∧
      s₂.buffer.lines.size = u.buffer.lines.size + 1 + 1 := by
  obtain ⟨rfl, -, -, size, isJump⟩ := jump_eq_ok jumped
  have begun : Onward (fun _ => False) s₁ s₂ := onward_closed entered
  refine ⟨begun.jumpsTo isJump ?_, ?_, ?_⟩
  · rw [continued.targets, if_pos mem_cons_self]
  · rw [← size, continued.label]
  · rw [continued.size, size]

/-- A loop ends with the holes that go back to the label. -/
theorem loop_repeated {body : Node} {s₃ : Emission} {own : Leaving} {check : Label}
    (left : takeLeaving body.id s = .ok (own, s₁))
    (again : backpatch own.next check s₁ = .ok ((), s₂))
    (back : backpatch own.continues check s₂ = .ok ((), s₃)) :
    own = s.leaving body ∧ (∀ r ∈ own.next, s₃.buffer.target? r = some (some check)) ∧
      ∀ r ∈ own.continues, s₃.buffer.target? r = some (some check) := by
  have second := CodeBuffer.target?_backpatch (backpatch_eq_ok back).1
  refine ⟨(leaving_of_take left).1, fun r mem => ?_, fun r mem => ?_⟩
  · rw [second, CodeBuffer.target?_backpatch (backpatch_eq_ok again).1, if_pos mem, ite_self]
  · rw [second, if_pos mem]

theorem loop_closes {frame : Option Frame} {loop : Node} {v : Emission} (shape : loop.Shape)
    (kind : loop.kind = .statement .loop) (ran : emitNode frame loop u = .ok ((), v)) :
    ∃ (run : LoopRun frame loop u v) (check : Label), run.Closes check := by
  cases shape with
  | @loop id l c a hc ha =>
    have resumed := resumed_loop (l := l) hc ha (i := 0) rfl ran
    obtain ⟨enter, s₁, jumped, ran⟩ := bind_eq_ok ran
    obtain ⟨s₂, entered, continued, ran⟩ := resume_eq_ok ran
    obtain ⟨t, t', lead, tested, rest⟩ := resumed
    obtain rfl := ran_unique lead ((bind_ok jumped).trans entered)
    have later := (onward_closed tested).then rest
    obtain ⟨isJump, label, size⟩ := loop_opened jumped entered continued
    obtain ⟨s₃, s₄, first, condition, -, ran⟩ := whenTrue_eq_ok ran
    have grown : Onward (fun _ => False) t s₄ := onward_closed condition
    obtain ⟨⟨⟩, s₅, second, ran⟩ := bind_eq_ok ran
    obtain ⟨own, s₆, left, ran⟩ := bind_eq_ok ran
    obtain ⟨⟨⟩, s₇, again, ran⟩ := bind_eq_ok ran
    obtain ⟨⟨⟩, s₈, back, ran⟩ := bind_eq_ok ran
    obtain ⟨rfl, next, continues⟩ := loop_repeated left again back
    have leadBody : ahead frame (.mk id l (.statement .loop) [c, a]) 1 u = .ok ((), s₄) :=
      (bind_ok jumped).trans ((bind_ok entered).trans (bind_ok condition))
    refine ⟨⟨c, a, t, s₃, s₄, s₅, rfl, rfl, ha, (bind_ok jumped).trans entered,
      emitNode_expression hc ▸ first, leadBody, emitNode_statement ha ▸ second⟩,
      .numbered s₁.names.labels, ?_⟩
    cases ran
    refine ⟨later.jumpsTo isJump (later.kept isJump.target?), ?_, ?_, next, continues, ?_⟩
    · rw [later.labelled (size ▸ Nat.lt_succ_self _), label]
    · exact Nat.lt_of_lt_of_le (size ▸ Nat.lt_succ_self _) grown.size
    · unfold leaving
      show (ExitTable.get (ExitTable.set _ id _) id).next = _
      rw [ExitTable.get_set_self]
  | _ => cases kind

/-- The emission of `m` from `u` on comes to `n` in this state, and there is no loop between
them. -/
inductive Inside (frame : Frame) (m : Node) (u : Emission) : Node → Emission → Prop
  | here : Inside frame m u m u
  | child {k n : Node} {i : Nat} {u₁ u₂ : Emission} (inside : Inside frame m u k u₁)
      (plain : k.kind ≠ .statement .loop) (child : k.children[i]? = some n)
      (lead : ahead (some frame) k i u₁ = .ok ((), u₂)) : Inside frame m u n u₂

/-! ## Ways out -/

section Ways

variable {functions : List Node} {s final : Emission} {frame : Frame} {m n : Node} {i : Nat}
  {u u' v : Emission}

/-- A child in a statement that is no loop. -/
theorem Stage.handed (stage : Stage s final frame m u v) (plain : m.kind ≠ .statement .loop)
    (child : m.children[i]? = some n) (statement : n.IsStatement) {u₁ : Emission}
    (lead : ahead (some frame) m i u = .ok ((), u₁)) :
    ∃ u₂, Stage s final frame n u₁ u₂ ∧ m.IsStatement ∧ (∀ j, Spans u₁ u₂ j → Spans u v j) ∧
      Passed u₁ u₂ (u₂.leaving n) (v.leaving m) v.buffer := by
  obtain ⟨t, u₂, lead', stage', onward⟩ := stage.child child
  obtain rfl := ran_unique lead lead'
  obtain ⟨isStatement, t, t', lead', emitted, passed⟩ :=
    handed_of_shape stage.shape plain child statement stage.ran
  obtain rfl := ran_unique lead lead'
  obtain rfl := ran_unique stage'.ran emitted
  have lead' : Confined (fun _ => True) [] (ahead (some frame) m i) :=
    confined_ahead stage.shape child inferInstance
  have grown : Onward (fun _ => False) u u₁ := onward_closed lead
  refine ⟨u₂, stage', isStatement, fun j span => ?_, passed⟩
  exact ⟨Nat.le_trans grown.size span.1, Nat.lt_of_lt_of_le span.2 onward.size⟩

variable {b b' : Emission} {info : FunctionInfo} {body : Node}

theorem Inside.stage (inside : Inside frame m b n u) (stage : Stage s final frame m b b') :
    ∃ u', Stage s final frame n u u' := by
  induction inside with
  | here => exact ⟨b', stage⟩
  | child inside plain child lead ih =>
    obtain ⟨v, stage⟩ := ih
    obtain ⟨t, u', lead', stage', -⟩ := stage.child child
    obtain rfl := ran_unique lead lead'
    exact ⟨u', stage'⟩

/-- The lists of a statement are passed on up to the loop around it. -/
theorem Inside.passed (inside : Inside frame m b n u) (body : Stage s final frame m b b')
    (stage : Stage s final frame n u u') (statement : n.IsStatement) :
    (u'.leaving n).breaks ⊆ (b'.leaving m).breaks ∧
      (u'.leaving n).continues ⊆ (b'.leaving m).continues := by
  induction inside generalizing u' with
  | here =>
    obtain rfl := ran_unique body.ran stage.ran
    exact ⟨List.Subset.refl _, List.Subset.refl _⟩
  | child inside plain child lead ih =>
    obtain ⟨v, around⟩ := inside.stage body
    obtain ⟨t, stage', isStatement, -, passed⟩ := around.handed plain child statement lead
    obtain rfl := ran_unique stage.ran stage'.ran
    obtain ⟨breaks, continues⟩ := ih around isStatement
    exact ⟨List.Subset.trans passed.breaks breaks, List.Subset.trans passed.continues continues⟩

/-- The body of a function is left by falling through only, which goes to a label behind it. -/
theorem closeBody_eq_ok {result : IrType} (ran : closeBody info result body u' = .ok ((), s')) :
    (u'.leaving body).breaks = [] ∧ (u'.leaving body).continues = [] ∧
      Goes u u' (u'.leaving body).next s'.buffer := by
  obtain ⟨own, s₁, left, ran⟩ := bind_eq_ok ran
  obtain ⟨rfl, size⟩ := leaving_of_take left
  by_cases escaped : (u'.leaving body).breaks ≠ [] ∨ (u'.leaving body).continues ≠ []
  · rw [if_pos escaped] at ran
    obtain ⟨_, _, failed, -⟩ := bind_eq_ok ran
    cases failed
  · rw [if_neg escaped] at ran
    obtain ⟨s₃, -, continued, ran⟩ := resume_eq_ok ran
    obtain ⟨breaks, continues⟩ := not_or.mp escaped
    have later : Onward (fun _ => False) s₃ s' := onward_closed ran
    refine ⟨not_not.mp breaks, not_not.mp continues, ?_⟩
    exact (continued.goes (Nat.le_of_eq size.symm)).onward later

theorem Generates.closed_body (h : Generates functions s final)
    {before after : List Node} {f : Node}
    (split : functions = before ++ f :: after) (kind : f.kind = .function info)
    (children : f.children = [body])
    (earlier : emitFunctions before s = .ok ((), s₁)) (lead : aheadBody info s₁ = .ok ((), u))
    (stage : Stage s final info.frame body u u') (statement : body.IsStatement) :
    (u'.leaving body).breaks = [] ∧ (u'.leaving body).continues = [] ∧
      Goes u u' (u'.leaving body).next final.buffer := by
  have ran := h.ran
  rw [split] at ran
  obtain ⟨t, earlier', ran⟩ := emitFunctions_append ran
  obtain rfl := ran_unique earlier earlier'
  obtain ⟨⟨⟩, s₂, here, later⟩ := bind_eq_ok ran
  obtain ⟨result, t, t', lead', emitted, closed⟩ := emitFunction_eq_ok kind children statement here
  obtain rfl := ran_unique lead lead'
  obtain rfl := ran_unique stage.ran emitted
  obtain ⟨breaks, continues, goes⟩ := closeBody_eq_ok (u := u) closed
  have onward : Onward (fun _ => False) s₂ final := onward_closed later
  exact ⟨breaks, continues, goes.onward onward⟩

/-- The emission of a loop as a stage of the whole. -/
theorem Stage.loop (stage : Stage s final frame m u v) (kind : m.kind = .statement .loop) :
    ∃ (run : LoopRun (some frame) m u v) (check : Label), run.Closes check ∧
      Stage s final frame run.body run.b run.b' := by
  obtain ⟨run, check, closes⟩ := loop_closes stage.shape kind stage.ran
  have child : m.children[1]? = some run.body := by
    rw [run.children]
    rfl
  obtain ⟨t, t', lead, body, -⟩ := stage.child child
  obtain rfl := ran_unique run.leadBody lead
  obtain rfl := ran_unique run.ranBody body.ran
  exact ⟨run, check, closes, body⟩

theorem LoopRun.eq_body (run : LoopRun (some frame) m u v) (child : m.children[i]? = some n)
    (statement : n.IsStatement) (shape : m.Shape) : i = 1 ∧ n = run.body := by
  obtain ⟨condition, body, c, c', b, b', kind, children, -, -, -, -, -⟩ := run
  cases shape with
  | loop hc ha =>
    cases children
    rcases of_getElem?_two child with ⟨rfl, rfl⟩ | ⟨rfl, rfl⟩
    · exact (statement.not_expression hc).elim
    · exact ⟨rfl, rfl⟩
  | _ => cases kind

/-- Where a statement falls through, it goes to one label outside its own lines. -/
theorem Generates.goes (h : Generates functions s final) (visit : Visited functions s frame n u)
    (stage : Stage s final frame n u u') (statement : n.IsStatement) :
    Goes u u' (u'.leaving n).next final.buffer := by
  induction visit generalizing u' with
  | body split kind children earlier lead =>
    exact (h.closed_body split kind children earlier lead stage statement).2.2
  | @child frame m n i u u₁ visit child lead ih =>
    obtain ⟨v, around⟩ := h.stage visit
    by_cases kind : m.kind = .statement .loop
    · obtain ⟨run, check, closes, body⟩ := around.loop kind
      obtain ⟨rfl, rfl⟩ := run.eq_body child statement around.shape
      obtain rfl := ran_unique lead run.leadBody
      obtain rfl := ran_unique stage.ran body.ran
      have goes : Goes run.b run.b' (run.b'.leaving run.body).next v.buffer :=
        ⟨check, _, closes.label, fun span => absurd closes.above (Nat.not_lt.mpr span.1),
          closes.again⟩
      exact goes.onward around.after
    · obtain ⟨t, stage', isStatement, spans, passed⟩ := around.handed kind child statement lead
      obtain rfl := ran_unique stage.ran stage'.ran
      rcases passed.next with subset | goes
      · exact (ih around isStatement).mono spans subset
      · exact goes.onward around.after

/-- A statement that leaves holes to the loop around it is in a loop. -/
theorem Generates.enclosed (h : Generates functions s final) (visit : Visited functions s frame n u)
    (stage : Stage s final frame n u u') (statement : n.IsStatement) :
    (∃ loop w w', Visited functions s frame loop w ∧ Stage s final frame loop w w' ∧
        ∃ (run : LoopRun (some frame) loop w w') (check : Label), run.Closes check ∧
          Stage s final frame run.body run.b run.b' ∧ Inside frame run.body run.b n u) ∨
      (u'.leaving n).breaks = [] ∧ (u'.leaving n).continues = [] := by
  induction visit generalizing u' with
  | body split kind children earlier lead =>
    obtain ⟨breaks, continues, -⟩ := h.closed_body split kind children earlier lead stage statement
    exact .inr ⟨breaks, continues⟩
  | @child frame m n i u u₁ visit child lead ih =>
    obtain ⟨v, around⟩ := h.stage visit
    by_cases kind : m.kind = .statement .loop
    · obtain ⟨run, check, closes, body⟩ := around.loop kind
      obtain ⟨rfl, rfl⟩ := run.eq_body child statement around.shape
      obtain rfl := ran_unique lead run.leadBody
      exact .inl ⟨m, u, v, visit, around, run, check, closes, body, .here⟩
    · obtain ⟨t, stage', isStatement, -, passed⟩ := around.handed kind child statement lead
      obtain rfl := ran_unique stage.ran stage'.ran
      rcases ih around isStatement with ⟨loop, w, w', visit', whole, run, check, closes,
        body, inside⟩ | ⟨breaks, continues⟩
      · exact .inl ⟨loop, w, w', visit', whole, run, check, closes, body,
          inside.child kind child lead⟩
      · refine .inr ⟨subset_nil.mp ?_, subset_nil.mp ?_⟩
        · exact breaks ▸ passed.breaks
        · exact continues ▸ passed.continues

/-! ## Wiring -/

/-- How the branches of a loop are connected in the finished code. -/
structure LoopRun.Wired {loop : Node} (run : LoopRun (some frame) loop u v) (check out : Label)
    (code : CodeBuffer) : Prop where
  entered : code.JumpsTo u.buffer.lines.size (some check)
  label : code.label? (u.buffer.lines.size + 1) = some check
  /-- The body goes back to the condition where it falls through, and from each `continue`. -/
  again : ∀ r ∈ (run.b'.leaving run.body).next, code.target? r = some (some check)
  continued : ∀ n t, Inside frame run.body run.b n t → n.kind = .statement .continue →
    code.JumpsTo t.buffer.lines.size (some check)
  /-- The loop is left where the condition is false, and from each `break`. -/
  ended : ∀ r ∈ (run.c'.exits.get run.condition.id).onFalse, code.target? r = some (some out)
  broken : ∀ n t, Inside frame run.body run.b n t → n.kind = .statement .break →
    code.JumpsTo t.buffer.lines.size (some out)
  outside : (∃ i, code.label? i = some out) ∧ ∀ i, code.label? i = some out → ¬Spans u v i

/-- A `break` and a `continue` are each a jump that is left to the loop. -/
theorem Stage.leaves (stage : Stage s final frame n u u')
    (kind : n.kind = .statement .break ∨ n.kind = .statement .continue) :
    u'.buffer.JumpsTo u.buffer.lines.size none ∧
      (n.kind = .statement .break → ⟨u.buffer.lines.size, .first⟩ ∈ (u'.leaving n).breaks) ∧
      (n.kind = .statement .continue →
        ⟨u.buffer.lines.size, .first⟩ ∈ (u'.leaving n).continues) := by
  have ran := stage.ran
  cases stage.shape with
  | @«break» id | @«continue» id =>
    obtain ⟨record, s₁, jumped, ran⟩ := bind_eq_ok ran
    obtain ⟨rfl, -, -, -, isJump⟩ := jump_eq_ok jumped
    cases ran
    unfold leaving
    dsimp only [Node.id]
    rw [ExitTable.get_set_self]
    exact ⟨isJump, fun is => by cases is <;> exact mem_cons_self,
      fun is => by cases is <;> exact mem_cons_self⟩
  | _ => rcases kind with is | is <;> cases is

theorem Generates.wired (h : Generates functions s final) {loop : Node}
    (visit : Visited functions s frame loop u)
    (stage : Stage s final frame loop u v) {run : LoopRun (some frame) loop u v} {check : Label}
    (closes : run.Closes check) (body : Stage s final frame run.body run.b run.b') :
    ∃ out, run.Wired check out final.buffer := by
  obtain ⟨out, i, found, outside, targets⟩ := h.goes visit stage ⟨_, run.kind⟩
  rw [closes.left] at targets
  have after := stage.after
  refine ⟨out, after.jumpsTo closes.entered (after.kept closes.entered.target?), ?_, ?_, ?_, ?_, ?_,
    ⟨i, found⟩, ?_⟩
  · rw [after.labelled (CodeBuffer.lt_of_label? closes.label), closes.label]
  · exact fun r mem => after.kept (closes.again r mem)
  · intro n t inside kind
    obtain ⟨t', own⟩ := inside.stage body
    obtain ⟨isJump, -, mem⟩ := own.leaves (.inr kind)
    have passed := (inside.passed body own ⟨_, kind⟩).2 (mem kind)
    exact own.after.jumpsTo isJump (after.kept (closes.continued _ passed))
  · exact fun r mem => targets r (mem_append_left _ mem)
  · intro n t inside kind
    obtain ⟨t', own⟩ := inside.stage body
    obtain ⟨isJump, mem, -⟩ := own.leaves (.inl kind)
    have passed := (inside.passed body own ⟨_, kind⟩).1 (mem kind)
    exact own.after.jumpsTo isJump (targets _ (mem_append_right _ passed))
  · intro j found' span
    -- A label belongs to the loop wherever it is written, or nowhere.
    exact outside ((h.within_iff stage found).mp ((h.within_iff stage found').mpr span))

/-- Every `break` and every `continue` is in a loop, and goes where the loop says. -/
theorem Generates.wires (h : Generates functions s final) (visit : Visited functions s frame n u)
    (kind : n.kind = .statement .break ∨ n.kind = .statement .continue) :
    ∃ loop w w', Visited functions s frame loop w ∧ emitNode (some frame) loop w = .ok ((), w') ∧
      ∃ (run : LoopRun (some frame) loop w w') (check out : Label),
        Inside frame run.body run.b n u ∧ run.Wired check out final.buffer := by
  obtain ⟨u', stage⟩ := h.stage visit
  have statement : n.IsStatement := kind.elim (fun is => ⟨_, is⟩) fun is => ⟨_, is⟩
  rcases h.enclosed visit stage statement with ⟨loop, w, w', visit', whole, run, check, closes,
    body, inside⟩ | none
  · obtain ⟨out, wired⟩ := h.wired visit' whole closes body
    exact ⟨loop, w, w', visit', whole.ran, run, check, out, inside, wired⟩
  · obtain ⟨-, breaks, continues⟩ := stage.leaves kind
    rcases kind with is | is
    · exact absurd (breaks is) (none.1 ▸ not_mem_nil)
    · exact absurd (continues is) (none.2 ▸ not_mem_nil)

end Ways

end Emission

/-! ## Programs -/

section Programs

variable {p : Program} {options : Options} {text : String}

/-- In the finished code of a program, every `break` and every `continue` is inside the body of a
loop, with no other loop between them. A `continue` jumps to the label of the loop's condition, as
do the jump into the loop and what falls through its body. A `break` jumps to the label that the
condition goes to when it is false, which stands outside the lines of the loop. -/
theorem Program.compile_wires_loops (compiled : p.compile options = .ok text) :
    ∃ tree c root final, p.analyze (.start options) = .ok (.ok tree, c) ∧ tree.root = some root ∧
      emitFunctions root.children (c.emission options.emitRuntime) = .ok ((), final) ∧
      final.buffer.render = .ok text ∧ (∀ f ∈ root.children, ∀ n ∈ Node.postorderAll f.children,
        ∃ frame u, Visited root.children (c.emission options.emitRuntime) frame n u) ∧
      ∀ frame n u, Visited root.children (c.emission options.emitRuntime) frame n u →
        n.kind = .statement .break ∨ n.kind = .statement .continue →
        ∃ loop w w', Visited root.children (c.emission options.emitRuntime) frame loop w ∧
          emitNode (some frame) loop w = .ok ((), w') ∧
          ∃ (run : LoopRun (some frame) loop w w') (check out : Label),
            Inside frame run.body run.b n u ∧ run.Wired check out final.buffer := by
  obtain ⟨tree, c, root, final, analyzed, hroot, generates, rendered⟩ :=
    generates_of_compile compiled
  refine ⟨tree, c, root, final, analyzed, hroot, generates.ran, rendered, ?_, ?_⟩
  · exact fun f mem n below => generates.visits mem below
  · exact fun frame n u visit kind => generates.wires visit kind

/-- The countdown has a loop that is left by a `break`. -/
theorem Program.countdown_wires_loops : ∃ text tree c root final frame n u loop w w',
    countdown.compile {} = .ok text ∧ countdown.analyze (.start {}) = .ok (.ok tree, c) ∧
      tree.root = some root ∧
      emitFunctions root.children (c.emission true) = .ok ((), final) ∧ n.kind = .statement .break ∧
      Visited root.children (c.emission true) frame n u ∧
        Visited root.children (c.emission true) frame loop w ∧
      ∃ (run : LoopRun (some frame) loop w w') (check out : Label),
        Inside frame run.body run.b n u ∧
        run.Wired check out final.buffer ∧ final.buffer.JumpsTo u.buffer.lines.size (some out) := by
  have found : countdown.hasNode (.statement .break) = true := by decide +kernel
  obtain ⟨tree, c, root, f, n, analyzed, hroot, mem, below, kind⟩ := exists_of_hasNode found
  obtain ⟨text, compiled⟩ := compiles_of_accepted ⟨tree, c, analyzed⟩ (by decide)
  obtain ⟨tree', c', root', final, analyzed', hroot', ran, -, visits, wires⟩ :=
    compile_wires_loops compiled
  cases analyzed.symm.trans analyzed'
  cases hroot.symm.trans hroot'
  obtain ⟨frame, u, visit⟩ := visits f mem n below
  obtain ⟨loop, w, w', visit', -, run, check, out, inside, wired⟩ :=
    wires frame n u visit (.inl kind)
  exact ⟨text, tree, c, root, final, frame, n, u, loop, w, w', compiled, analyzed, hroot, ran, kind,
    visit, visit', run, check, out, inside, wired, wired.broken n u inside kind⟩

end Programs

end Backpatch
