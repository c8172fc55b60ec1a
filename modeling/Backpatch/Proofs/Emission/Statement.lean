import Backpatch.Code.Statement
import Backpatch.Proofs.Emission.Expression

/-!
# The emission of statements

The emission of a statement writes the code of the action that the statement stands for, and the
lists that are then taken from its node are the holes of the exits of that code. As for expressions,
there is one lemma for each kind of action, and `Action.emitted` puts them together.
-/

namespace Backpatch

open Emission Step List

/-- The holes of a statement that stands from the given line on. -/
def leavingOf (start : Nat) (steps : List (Step Leave)) : Leaving :=
  { next := records .next start steps
    breaks := records .break start steps
    continues := records .continue start steps }

/-- The emission of the node writes the code of the action; the lists taken from the node are the
holes of its exits. -/
def Action.Emitted (frame : Frame) (action : Action) (n : Node) : Prop :=
  Writes (emitStatement (some frame) n) (takeLeaving n.id) (action.code frame) leavingOf

section Ends

variable {frame : Frame} {action : Action} {n : Node}

theorem Action.emitted_of_setLeaving (h : ∀ s b xs gs t, ExitTable.Quiet t → ∃ t', t'.Quiet ∧
      emitStatement (some frame) n ⟨s, CodeBuffer.append b xs gs, t⟩
        = setLeaving n.id (leavingOf (b.lines.size + xs.length) (action.code frame s).steps)
            ⟨(action.code frame s).names,
              b.append (xs ++ (action.code frame s).steps.map (instr fun _ => none))
                (gs ++ (action.code frame s).globals), t'⟩) :
    action.Emitted frame n := by
  intro s b xs gs t ht
  obtain ⟨t', ht', run⟩ := h s b xs gs t ht
  exact takeLeaving_run _ _ t' _ ht' run

/-- An action without holes needs no lists. -/
theorem Action.emitted_of_quiet (h : ∀ s b xs gs t, ExitTable.Quiet t → ∃ t', t'.Quiet ∧
      emitStatement (some frame) n ⟨s, CodeBuffer.append b xs gs, t⟩
        = .ok ((), ⟨(action.code frame s).names,
            b.append (xs ++ (action.code frame s).steps.map (instr fun _ => none))
              (gs ++ (action.code frame s).globals), t'⟩))
    (hl : ∀ start s, leavingOf start (action.code frame s).steps = {}) :
    action.Emitted frame n := by
  intro s b xs gs t ht
  obtain ⟨t', ht', run⟩ := h s b xs gs t ht
  obtain ⟨hT, hF, hn, hb, hc⟩ := ht' n.id
  let e : Exits := { t'.get n.id with next := [], breaks := [], continues := [] }
  refine ⟨t'.set n.id e, ht'.set n.id (e := e) ⟨hT, hF, rfl, rfl, rfl⟩, ?_⟩
  rw [bind_ok run, hl]
  unfold takeLeaving
  rw [bind_ok (exitsOf_run n.id _)]
  show Except.ok _ = _
  rw [hn, hb, hc]

end Ends

section Table

variable {t : ExitTable} (ht : t.Quiet) (id : NodeId) (names : NameSupply) (b : CodeBuffer)

include ht

theorem setNext_eq (next : PatchList) :
    setNext id next ⟨names, b, t⟩ = setLeaving id { next := next } ⟨names, b, t⟩ := by
  obtain ⟨-, -, -, hb, hc⟩ := ht id
  unfold setNext setLeaving modifyExits
  simp only [hb, hc]

theorem setBreaks_eq (breaks : PatchList) :
    modifyExits id (fun e => { e with breaks := breaks }) ⟨names, b, t⟩
      = setLeaving id { breaks := breaks } ⟨names, b, t⟩ := by
  obtain ⟨-, -, hn, -, hc⟩ := ht id
  unfold setLeaving modifyExits
  simp only [hn, hc]

theorem setContinues_eq (continues : PatchList) :
    modifyExits id (fun e => { e with continues := continues }) ⟨names, b, t⟩
      = setLeaving id { continues := continues } ⟨names, b, t⟩ := by
  obtain ⟨-, -, hn, hb, -⟩ := ht id
  unfold setLeaving modifyExits
  simp only [hn, hb]

end Table

attribute [local simp] leavingOf records_append records slots instr

/-- A statement that ends with a jump to what comes after it has no other hole. -/
theorem fallThrough_run {t : ExitTable} (ht : t.Quiet) (id : NodeId) (names : NameSupply)
    (b : CodeBuffer) (xs : List Instr) (steps : List (Step Empty)) (gs : List Global) :
    Emission.fallThrough id ⟨names, b.append (xs ++ steps.map (instr noExits)) gs, t⟩
      = setLeaving id (leavingOf (b.lines.size + xs.length) (steps.map lift ++ [fallThrough]))
          ⟨names, b.append (xs ++ (steps.map lift ++ [fallThrough]).map
            (instr fun _ => none)) gs, t⟩ := by
  refine bind_then jump_run ?_
  rw [setNext_eq ht]
  simp [-map_map, fallThrough, records_lift, map_instr_lift, Exit.target, Nat.add_assoc]

/-! ## Connections -/

section Connections

variable (steps : List (Step Bool)) (onTrue : Label) (start : Nat)

theorem records_orNext :
    records .next start (steps.map (Step.bind (orNext onTrue)))
      = records false start steps := by
  apply records_bind
  intro value
  cases value <;> simp [orNext]

variable {w : Leave}

theorem records_orNext_of_ne (h : w ≠ .next) :
    records w start (steps.map (Step.bind (orNext onTrue))) = [] := by
  apply records_bind_eq_nil
  intro value eq
  cases value with
  | true => cases eq
  | false => exact h (Exit.via.inj eq).symm

theorem map_instr_orNext :
    (steps.map (Step.bind (orNext onTrue))).map (instr fun _ => none)
      = steps.map (instr (fillExit (fun _ => none) true onTrue)) := by
  rw [map_instr_bind]
  congr 2
  funext value
  cases value <;> rfl

variable (body : List (Step Leave)) (check : Label)

theorem records_backTo :
    records .next start (body.map (Step.bind (backTo check)))
      = records .break start body := by
  apply records_bind
  intro w
  cases w <;> simp [backTo]

theorem records_backTo_of_ne (h : w ≠ .next) :
    records w start (body.map (Step.bind (backTo check))) = [] := by
  apply records_bind_eq_nil
  intro v eq
  cases v with
  | next | «continue» => cases eq
  | «break» => exact h (Exit.via.inj eq).symm

theorem map_instr_backTo :
    (body.map (Step.bind (backTo check))).map (instr fun _ => none)
      = body.map (instr (fillExit (fillExit (fun _ => none) .next check) .continue check)) :=
        by
  rw [map_instr_bind]
  congr 2
  funext w
  cases w <;> rfl

end Connections

/-! ## Actions -/

section Actions

variable {frame : Frame} {id : NodeId} {l : Location}

theorem frameOf_run (frame : Frame) (e : Emission) : frameOf (some frame) e = .ok (frame, e) := rfl

variable {x y : Node} {name : String} {value : Term} {condition : Test} {place : Place}
  {offset pointer : Nat}
  {type : Ty} {arguments : Arguments} {nodes : List Node} {parameters : List Ty} {body : Action}

theorem Action.emitted_declare_none : (Action.declare offset pointer none).Emitted frame
      (.mk id l (.statement (.declaration name type offset (.temp pointer))) []) := by
  refine Action.emitted_of_setLeaving fun s b xs gs t ht => ⟨t, ht, ?_⟩
  rw [Action.code]
  refine bind_then (frameOf_run frame _) ?_
  refine bind_then (write_run (by exact trivial) (by rfl)) ?_
  refine bind_then (pure_run (Operand.number 0) _) ?_
  refine bind_then (write_run (by exact ⟨trivial, trivial⟩) (by rfl)) ?_
  rw [append_assoc, List.append_nil]
  exact fallThrough_run ht id s b xs
    [Step.line (.slotAddress (.temp pointer) frame.size offset),
     .line (.store (.number 0) (.temp pointer))] gs

theorem Action.emitted_declare_some (hx : value.Emitted frame x) :
    (Action.declare offset pointer (some value)).Emitted frame
      (.mk id l (.statement (.declaration name type offset (.temp pointer))) [x]) := by
  refine Action.emitted_of_setLeaving fun s b xs gs t ht => ?_
  let address : Instr := .slotAddress (.temp pointer) frame.size offset
  obtain ⟨t₁, ht₁, run₁⟩ := hx s b (xs ++ [address]) gs t ht
  refine ⟨t₁, ht₁, ?_⟩
  have gen := (value.place_inUse frame s).generated
  rw [Action.code]
  generalize value.code frame s = a at run₁ gen
  refine bind_then (frameOf_run frame _) ?_
  refine bind_then (write_run (by exact trivial) (by rfl)) ?_
  refine bind_then run₁ ?_
  refine bind_then (pure_run (Operand.register a.place) _) ?_
  refine bind_then (write_run (by exact ⟨gen, trivial⟩) (by rfl)) ?_
  have done := fallThrough_run ht₁ id a.names b xs
    (.line address :: a.steps ++ [Step.line (.store (.register a.place) (.temp pointer))])
    (gs ++ a.globals)
  simp only [map_append, map_cons, map_nil, append_assoc, cons_append,
    nil_append] at done ⊢
  exact done

theorem pointerOf_run (h : place.Stored frame) (e : Emission) :
    pointerOf (some frame) place.binding e = .ok (place.pointer frame, e) := by
  cases place with
  | «variable» pointer => rfl
  | parameter index =>
    obtain ⟨slot, found⟩ := h
    refine bind_then (parameterSlot_run found e) ?_
    simp only [Place.pointer, found]
    rfl

theorem Place.pointer_generated (hf : frame.Generated) (h : place.Stored frame) :
    (place.pointer frame).Generated := by
  cases place with
  | «variable» pointer => exact trivial
  | parameter index =>
    obtain ⟨slot, found⟩ := h
    simp only [Place.pointer, found]
    exact hf index slot found

theorem Action.emitted_assign (hf : frame.Generated) (hp : place.Stored frame)
    (hx : value.Emitted frame x) :
    (Action.assign place value).Emitted frame
      (.mk id l (.statement (.assignment place.binding)) [x]) := by
  refine Action.emitted_of_setLeaving fun s b xs gs t ht => ?_
  obtain ⟨t₁, ht₁, run₁⟩ := hx s b xs gs t ht
  refine ⟨t₁, ht₁, ?_⟩
  have gen := (value.place_inUse frame s).generated
  rw [Action.code]
  generalize value.code frame s = a at run₁ gen
  refine bind_then run₁ ?_
  refine bind_then (pointerOf_run hp _) ?_
  refine bind_then (write_run
      (by exact ⟨gen, Place.pointer_generated hf hp⟩) (by rfl)) ?_
  have done := fallThrough_run ht₁ id a.names b xs
    (a.steps ++ [Step.line (.store (.register a.place) (place.pointer frame))]) (gs ++ a.globals)
  simp only [map_append, map_cons, map_nil, append_assoc, cons_append,
    nil_append] at done ⊢
  exact done

theorem Action.emitted_drop (hty : x.type? ≠ some .bool) (hx : value.Emitted frame x) :
    (Action.drop value).Emitted frame (.mk id l (.statement .expression) [x]) := by
  refine Action.emitted_of_setLeaving fun s b xs gs t ht => ?_
  obtain ⟨t₁, ht₁, run₁⟩ := hx.expression hty s b xs gs t ht
  refine ⟨t₁, ht₁, ?_⟩
  rw [Action.code]
  refine bind_then run₁ ?_
  simp only [hty, if_false]
  exact fallThrough_run ht₁ id _ b xs _ _

/-- A call for its effect is the code of its arguments and the line of the call. -/
theorem Arguments.Emitted.call (hc : Clean name) (ha : arguments.Emitted frame nodes parameters)
    (id : NodeId)
    (l : Location) (s : NameSupply) (b : CodeBuffer) (xs : List Instr) (gs : List Global)
    (t : ExitTable) (ht : t.Quiet) : ∃ t', t'.Quiet ∧
      emitExpression (some frame) (.mk id l (.expression .void (.call name parameters)) nodes)
        ⟨s, b.append xs gs, t⟩ = .ok ((), ⟨(arguments.code frame s).names,
          b.append (xs ++ ((arguments.code frame s).steps ++
            [Step.line (.call none name (arguments.code frame s).operands)]).map
              (instr noExits))
            (gs ++ (arguments.code frame s).globals), t'⟩) := by
  obtain ⟨t₁, ht₁, run₁⟩ := ha s b xs gs t ht
  refine ⟨t₁, ht₁, ?_⟩
  have gen := arguments.operands_code_generated frame s
  refine bind_then run₁ ?_
  unfold emitCall
  rw [if_pos rfl]
  refine (write_run (by exact ⟨fun _ h => (by cases h), hc, gen⟩) (by rfl)).trans ?_
  rw [append_assoc, map_append]
  rfl

theorem Action.emitted_run (hc : Clean name) (ha : arguments.Emitted frame nodes parameters)
    {id' : NodeId}
    {l' : Location} : (Action.run name arguments).Emitted frame (.mk id l (.statement .expression)
      [.mk id' l' (.expression .void (.call name parameters)) nodes]) := by
  refine Action.emitted_of_setLeaving fun s b xs gs t ht => ?_
  obtain ⟨t₁, ht₁, call⟩ := ha.call hc id' l' s b xs gs t ht
  refine ⟨t₁, ht₁, ?_⟩
  rw [Action.code]
  generalize arguments.code frame s = a at call
  refine bind_then call ?_
  have done :=
    fallThrough_run ht₁ id a.names b xs (a.steps ++ [Step.line (.call none name a.operands)])
    (gs ++ a.globals)
  simp only [map_append, map_cons, map_nil, append_assoc, cons_append,
    nil_append] at done ⊢
  exact done

theorem Action.emitted_check (hty : x.type? = some .bool) (hx : condition.Emitted frame x) :
    (Action.check condition).Emitted frame (.mk id l (.statement .expression) [x]) := by
  refine Action.emitted_of_setLeaving fun s b xs gs t ht => ?_
  obtain ⟨t₁, ht₁, run₁⟩ := hx s b xs gs t ht
  refine ⟨t₁, ht₁, ?_⟩
  have tested : emitStatement (some frame) (.mk id l (.statement .expression) [x]) = (do
      emitExpression (some frame) x
      let lists ← takeBranches x.id
      let here ← label
      backpatch lists.1 here
      backpatch lists.2 here
      Emission.fallThrough id) := by
    show (do
      emitExpression (some frame) x
      if x.type? = some Ty.bool then _ else _) = _
    rw [hty]
    rfl
  rw [tested, Action.code]
  generalize condition.code frame s = c at run₁
  let here := c.names.label
  refine (bind_part run₁).trans ?_
  refine bind_then label_run ?_
  refine bind_then (backpatch_run _ b _ t₁ xs [.label here] c.steps
    (fun _ => none) true here rfl rfl rfl) ?_
  refine bind_then (backpatch_run _ b _ t₁ xs [.label here] c.steps
    (fillExit (fun _ => none) true here) false here rfl rfl rfl) ?_
  have done := fallThrough_run ht₁ id c.names.nextLabel b xs
    (c.steps.map (Step.bind (toLabels here here)) ++ [Step.line (.label here)]) (gs ++ c.globals)
  rw [map_append, ← map_instr_toLabels, ← append_assoc] at done
  refine done.trans ?_
  have exits : (c.steps.map (Step.bind (toLabels here here))).map (lift (W := Leave))
      = c.steps.map (Step.bind fun _ => .goto here) := by
    rw [map_map]
    refine map_congr_left fun step _ => ?_
    cases step with
    | line i => rfl
    | jump e => rcases e with l | _ | _ <;> rfl
    | branch r t f => rcases t with l | _ | _ <;> rcases f with l | _ | _ <;> rfl
  rw [map_append, exits, append_assoc]
  rfl

theorem Action.emitted_when (hx : condition.Emitted frame x) (hy : body.Emitted frame y) :
    (Action.when condition body).Emitted frame (.mk id l (.statement .conditional) [x, y]) := by
  refine Action.emitted_of_setLeaving fun s b xs gs t ht => ?_
  obtain ⟨t', ht', run⟩ := hx.then hy true s b xs gs t ht
  refine ⟨t', ht', (run _).trans ?_⟩
  rw [Action.code]
  simp [-map_map, records_orNext, records_orNext_of_ne, map_instr_orNext, Nat.add_assoc]
  rfl

theorem Action.emitted_either {thenBranch elseBranch : Action} {z : Node}
    (hx : condition.Emitted frame x)
    (hy : thenBranch.Emitted frame y) (hz : elseBranch.Emitted frame z) :
    (Action.either condition thenBranch elseBranch).Emitted frame
      (.mk id l (.statement .conditional) [x, y, z]) := by
  refine Action.emitted_of_setLeaving fun s b xs gs t ht => ?_
  obtain ⟨t', ht', run⟩ := hx.both hy hz s b xs gs t ht
  refine ⟨t', ht', (run _).trans ?_⟩
  rw [Action.code]
  simp [-map_map, records_toLabels, map_instr_toLabels fun _ : Leave => none, Nat.add_assoc,
    Nat.add_comm 1]
  rfl

theorem Action.emitted_loop (hx : condition.Emitted frame x) (hy : body.Emitted frame y) :
    (Action.loop condition body).Emitted frame (.mk id l (.statement .loop) [x, y]) := by
  refine Action.emitted_of_setLeaving fun s b xs gs t ht => ?_
  let check := s.label
  let head := xs ++ [Instr.jump (some check)] ++ [Instr.label check]
  obtain ⟨t₁, ht₁, run₁⟩ := hx.then hy true s.nextLabel b head gs t ht
  rw [Action.code]
  dsimp only at run₁ ⊢
  generalize condition.code frame s.nextLabel = c at run₁
  let bodyLabel := c.names.label
  let filled := c.steps.map (instr (fillExit (fun _ => none) true bodyLabel))
  generalize body.code frame c.names.nextLabel = a at run₁
  refine ⟨t₁, ht₁, ?_⟩
  refine bind_then jump_run ?_
  refine bind_then label_run ?_
  refine bind_then (backpatch_run _ b gs t xs [.label check] [Step.jump (.via ())] (fun _ => none)
    () check rfl ?_ rfl) ?_
  · rfl
  refine (run₁ _).trans ?_
  have patchNext := backpatch_run a.names b (gs ++ c.globals ++ a.globals) t₁
    (head ++ filled ++ [Instr.label bodyLabel]) [] a.steps (fun _ => none) .next check rfl
    (List.append_nil _).symm rfl
  have patchContinue := backpatch_run a.names b (gs ++ c.globals ++ a.globals) t₁
    (head ++ filled ++ [Instr.label bodyLabel]) [] a.steps (fillExit (fun _ => none) .next check)
    .continue check rfl rfl rfl
  refine bind_then patchNext ?_
  refine bind_then patchContinue ?_
  rw [setNext_eq ht₁]
  simp [-map_map, records_orNext, records_orNext_of_ne, map_instr_orNext, records_backTo,
    records_backTo_of_ne, map_instr_backTo, Exit.target, Nat.add_assoc, Nat.add_left_comm 2, filled,
    head, check, bodyLabel]
  rfl

theorem Action.emitted_break : Action.break.Emitted frame (.mk id l (.statement .break) []) := by
  refine Action.emitted_of_setLeaving fun s b xs gs t ht => ⟨t, ht, ?_⟩
  rw [Action.code, List.append_nil]
  refine bind_then jump_run ?_
  exact setBreaks_eq ht id s _ _

theorem Action.emitted_continue :
    Action.continue.Emitted frame (.mk id l (.statement .continue) []) := by
  refine Action.emitted_of_setLeaving fun s b xs gs t ht => ⟨t, ht, ?_⟩
  rw [Action.code, List.append_nil]
  refine bind_then jump_run ?_
  exact setContinues_eq ht id s _ _

theorem Action.emitted_return_none :
    (Action.return none).Emitted frame (.mk id l (.statement .return) []) := by
  refine Action.emitted_of_quiet (fun s b xs gs t ht => ⟨t, ht, ?_⟩) fun start s => ?_
  · rw [Action.code, List.append_nil]
    exact write_run (fun _ h => by cases h) rfl
  · rw [Action.code]
    rfl

theorem Action.emitted_return_some (hir : frame.returnType.ir? ≠ none)
    (hx : value.Emitted frame x) :
    (Action.return (some value)).Emitted frame (.mk id l (.statement .return) [x]) := by
  obtain ⟨ir, hir⟩ := Option.ne_none_iff_exists'.mp hir
  refine Action.emitted_of_quiet (fun s b xs gs t ht => ?_) fun start s => ?_
  · obtain ⟨t₁, ht₁, run₁⟩ := hx s b xs gs t ht
    refine ⟨t₁, ht₁, ?_⟩
    have gen := (value.place_inUse frame s).generated
    rw [Action.code]
    refine bind_then run₁ ?_
    refine bind_then (frameOf_run frame _) ?_
    refine bind_then (irType_run hir _) ?_
    have plain : (Instr.ret (some (ir, .register (value.code frame s).place))).Plain := by
      intro v hv
      obtain rfl := Option.mem_some.mp hv
      exact gen
    refine (write_run plain (by rfl)).trans ?_
    simp [-map_map, map_instr_lift, Ty.ir, hir]
  · rw [Action.code]
    simp [records_lift]

theorem Action.emitted_block_nil :
    (Action.block .nil).Emitted frame (.mk id l (.statement .block) []) := by
  refine Action.emitted_of_setLeaving fun s b xs gs t ht => ⟨t, ht, ?_⟩
  rw [Action.code, List.append_nil]
  exact bind_ok jump_run

end Actions

/-! ## Blocks -/

section Blocks

variable {frame : Frame}

/-- The code of the statements of a block behind code that stands before them already. -/
def Actions.behind (frame : Frame) (before : List (Step Leave)) : Actions → NameSupply → Code Leave
  | .nil, s => { steps := before, names := s }
  | .cons first rest, s =>
    let c := Actions.code frame (.cons first rest) s.nextLabel
    { steps :=
        before.map (Step.bind (Exit.connect .next s.label)) ++ .line (.label s.label) :: c.steps
      globals := c.globals
      names := c.names }

theorem Actions.code_cons (first : Action) (rest : Actions) (s : NameSupply) :
    Actions.code frame (.cons first rest) s
      = { rest.behind frame (first.code frame s).steps (first.code frame s).names with
          globals := (first.code frame s).globals ++
            (rest.behind frame (first.code frame s).steps (first.code frame s).names).globals
              } := by
  cases rest with
  | nil =>
    rw [Actions.code]
    simp only [Actions.behind, List.append_nil]
  | cons second rest =>
    rw [Actions.code]
    rfl

/-- What stands behind a label is not changed by what stands before it. -/
theorem Actions.behind_append (rest : Actions) (before after : List (Step Leave)) (here : Label)
    (s : NameSupply) :
    rest.behind frame (before.map (Step.bind (Exit.connect .next here)) ++ .line
      (.label here) :: after) s = { rest.behind frame after s with
          steps := before.map (Step.bind (Exit.connect .next here)) ++
            .line (.label here) :: (rest.behind frame after s).steps } := by
  cases rest with
  | nil => rfl
  | cons second rest =>
    simp only [Actions.behind, map_append, map_cons, map_map, append_assoc,
      cons_append]
    congr 2
    exact map_congr_left fun step _ => Step.bind_connect_connect Leave.next here s.label step

/-- The emission of the nodes writes the code of the statements behind what has been written of the
block. -/
def Actions.EmittedBehind (frame : Frame) (rest : Actions) (nodes : List Node) : Prop :=
  ∀ before s b xs gs t, ExitTable.Quiet t → ∃ t', t'.Quiet ∧
    emitRest (some frame) (leavingOf (b.lines.size + xs.length) before) nodes
        ⟨s, CodeBuffer.append b (xs ++ before.map (instr fun _ => none)) gs, t⟩
      = .ok (leavingOf (b.lines.size + xs.length) (rest.behind frame before s).steps,
          ⟨(rest.behind frame before s).names,
            b.append (xs ++ (rest.behind frame before s).steps.map (instr fun _ => none))
              (gs ++ (rest.behind frame before s).globals), t'⟩)

theorem Actions.emittedBehind_nil : Actions.nil.EmittedBehind frame [] := by
  intro before s b xs gs t ht
  refine ⟨t, ht, ?_⟩
  rw [Actions.behind, List.append_nil]
  rfl

variable {first : Action} {rest : Actions} {n : Node} {ns : List Node}

theorem Actions.emittedBehind_cons (hn : first.Emitted frame n)
    (hns : rest.EmittedBehind frame ns) :
    (Actions.cons first rest).EmittedBehind frame (n :: ns) := by
  intro before s b xs gs t ht
  let here := s.label
  let filled := before.map (instr (fillExit (fun _ => none) .next here))
  obtain ⟨t₁, ht₁, run₁⟩ := hn s.nextLabel b (xs ++ filled ++ [Instr.label here]) gs t ht
  rw [Actions.behind, Actions.code_cons]
  generalize first.code frame s.nextLabel = a at run₁
  let joined := before.map (Step.bind (Exit.connect .next here)) ++ .line (.label here) :: a.steps
  obtain ⟨t₂, ht₂, run₂⟩ := hns joined a.names b xs (gs ++ a.globals) t₁ ht₁
  refine ⟨t₂, ht₂, ?_⟩
  have lists : leavingOf (b.lines.size + xs.length) joined
      = { next :=
          (leavingOf (b.lines.size + (xs ++ filled ++ [Instr.label here]).length) a.steps).next
          breaks := (leavingOf (b.lines.size + xs.length) before).breaks ++
            (leavingOf (b.lines.size + (xs ++ filled ++ [Instr.label here]).length) a.steps).breaks
          continues := (leavingOf (b.lines.size + xs.length) before).continues ++
            (leavingOf (b.lines.size + (xs ++ filled ++ [Instr.label here]).length)
              a.steps).continues } := by
    simp [joined, filled, records_connect_self, records_connect_of_ne, Nat.add_assoc]
  have code : xs ++ joined.map (instr fun _ => none)
      = xs ++ filled ++ [Instr.label here] ++ a.steps.map (instr fun _ => none) := by
    simp [-map_map, joined, filled, map_instr_connect]
  have patched :=
    backpatch_run s.nextLabel b gs t xs [.label here] before (fun _ => none) .next here rfl rfl rfl
  refine bind_then label_run ?_
  refine bind_then patched ?_
  refine (bind_part run₁).trans ?_
  rw [← lists, ← code]
  refine run₂.trans ?_
  rw [Actions.behind_append, append_assoc]

theorem Action.emitted_block_cons (hn : first.Emitted frame n) (hns : rest.EmittedBehind frame ns)
    {id : NodeId} {l : Location} :
    (Action.block (.cons first rest)).Emitted frame (.mk id l (.statement .block) (n :: ns)) := by
  refine Action.emitted_of_setLeaving fun s b xs gs t ht => ?_
  obtain ⟨t₁, ht₁, run₁⟩ := hn s b xs gs t ht
  rw [Action.code, Actions.code_cons]
  generalize first.code frame s = a at run₁
  obtain ⟨t₂, ht₂, run₂⟩ := hns a.steps a.names b xs (gs ++ a.globals) t₁ ht₁
  refine ⟨t₂, ht₂, ?_⟩
  refine (bind_part run₁).trans ?_
  refine bind_then run₂ ?_
  rw [append_assoc]
  rfl

end Blocks

/-! ## Induction -/

theorem Term.Of.type?_of_isNumeral {n : Node} {term : Term} (h : term.Of n)
    (numeral : term.isNumeral = true) : n.type? ≠ some .bool := by
  have other {type : Ty} (ne : type ≠ .bool) : some type ≠ some .bool :=
    fun eq => ne (Option.some.inj eq)
  cases h with
  | @number _ _ value _ hk =>
    cases value with
    | int | byte | string => exact other Ty.noConfusion
    | bool => cases hk
  | text | cut => exact other Ty.noConfusion
  | truth => cases numeral
  | arithmetic numbers => exact other numbers.ne_bool
  | read hb | call _ hb | same _ hb | choice hb => exact other hb

section Induction

variable {frame : Frame}

mutual

/-- The emission of a tree writes the code of the action that the tree stands for. -/
theorem Action.emitted (hf : frame.Generated) (hr : frame.returnType.ir? ≠ none) {limit : Nat}
    {inLoop : Bool} {live : Live} {action : Action} {n : Node} : action.Of n →
      action.Scoped frame limit cleanNames inLoop live → action.Emitted frame n
  | .declare, _ => Action.emitted_declare_none
  | .declareWith hx, hs => Action.emitted_declare_some (Term.emitted hf hx hs.2)
  | .assign hx, hs => Action.emitted_assign hf hs.2.1 (Term.emitted hf hx hs.2.2)
  | .drop numeral hx, hs =>
    Action.emitted_drop (hx.type?_of_isNumeral numeral) (Term.emitted hf hx hs)
  | .run of, hs => Action.emitted_run hs.1 (Arguments.emitted hf of hs.2)
  | .check hx, hs => Action.emitted_check hx.type? (Test.emitted hf hx hs)
  | .when hc hx, hs => Action.emitted_when (Test.emitted hf hc hs.1) (Action.emitted hf hr hx hs.2)
  | .either hc hx hy, hs =>
    Action.emitted_either (Test.emitted hf hc hs.1) (Action.emitted hf hr hx hs.2.1)
    (Action.emitted hf hr hy hs.2.2)
  | .loop hc hx, hs => Action.emitted_loop (Test.emitted hf hc hs.1) (Action.emitted hf hr hx hs.2)
  | .break, _ => Action.emitted_break
  | .continue, _ => Action.emitted_continue
  | .return, _ => Action.emitted_return_none
  | .give hx, hs => Action.emitted_return_some hr (Term.emitted hf hx hs.2)
  | .block .nil, _ => Action.emitted_block_nil
  | .block (.cons hx hrest), hs =>
    Action.emitted_block_cons (Action.emitted hf hr hx hs.1)
      (Actions.emittedBehind hf hr hrest hs.2)

theorem Actions.emittedBehind (hf : frame.Generated) (hr : frame.returnType.ir? ≠ none)
    {limit : Nat}
    {inLoop : Bool} {live : Live} {actions : Actions} {nodes : List Node} : actions.Of nodes →
      actions.Scoped frame limit cleanNames inLoop live → actions.EmittedBehind frame nodes
  | .nil, _ => Actions.emittedBehind_nil
  | .cons hx hrest, hs =>
    Actions.emittedBehind_cons (Action.emitted hf hr hx hs.1)
      (Actions.emittedBehind hf hr hrest hs.2)

end

end Induction

end Backpatch
