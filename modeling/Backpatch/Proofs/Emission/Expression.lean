import Backpatch.Code.Expression
import Backpatch.Proofs.Core.Scope
import Backpatch.Proofs.Emission.Run

/-!
# The emission of expressions

The emission of an expression writes the code of the core term that the expression stands for,
behind whatever is in the buffer already, and leaves no list about any node when the lists of the
expression are taken. One lemma for each kind of term and test says this of the kind from its
operands, and `Term.emitted`, `Test.emitted` and `Arguments.emitted` put them together by induction
on the term.
-/

namespace Backpatch

open Emission Step List

/-- The addresses of the parameters are in generated registers. -/
def Frame.Generated (frame : Frame) : Prop :=
  ∀ (index : Nat) (slot : Register), frame.slots[index]? = some (some slot) → slot.Generated

/-- A function can be called if its name is clean. -/
def cleanNames : Signatures := fun name _ _ => Clean name

theorem NameSupply.register_generated (s : NameSupply) : s.register.Generated := trivial

/-! ## What is to be shown -/

/-- The emission of the node writes the code of the term and finds its value. -/
def Term.Emitted (frame : Frame) (term : Term) (n : Node) : Prop :=
  ∀ s b xs gs t, ExitTable.Quiet t → ∃ t', t'.Quiet ∧
    emitValue (some frame) n ⟨s, CodeBuffer.append b xs gs, t⟩
      = .ok ((term.code frame s).place,
          ⟨(term.code frame s).names,
            b.append (xs ++ (term.code frame s).steps.map (instr noExits))
              (gs ++ (term.code frame s).globals), t'⟩)

/-- What a part of the code does: it emits the code and takes the lists of its exits. -/
def Writes {W β : Type} (emit : EmitM Unit) (take : EmitM β) (code : NameSupply → Code W)
    (lists : Nat → List (Step W) → β) : Prop :=
  ∀ s b xs gs t, ExitTable.Quiet t → ∃ t', t'.Quiet ∧
    (emit >>= fun _ => take) ⟨s, CodeBuffer.append b xs gs, t⟩
      = .ok (lists (b.lines.size + xs.length) (code s).steps,
          ⟨(code s).names, b.append (xs ++ (code s).steps.map (instr fun _ => none))
            (gs ++ (code s).globals), t'⟩)

/-- The emission of the node writes the code of the test; the lists taken from the node are the
holes of its exits. -/
def Test.Emitted (frame : Frame) (test : Test) (n : Node) : Prop :=
  Writes (emitExpression (some frame) n) (takeBranches n.id) (test.code frame)
    fun start steps => (records true start steps, records false start steps)

/-- The emission of the nodes writes the code of the arguments and finds their values. -/
def Arguments.Emitted (frame : Frame) (arguments : Arguments) (nodes : List Node)
    (types : List Ty) : Prop :=
  ∀ s b xs gs t, ExitTable.Quiet t → ∃ t', t'.Quiet ∧
    emitArguments (some frame) nodes types ⟨s, CodeBuffer.append b xs gs, t⟩
      = .ok ((arguments.code frame s).operands,
          ⟨(arguments.code frame s).names,
            b.append (xs ++ (arguments.code frame s).steps.map (instr noExits))
              (gs ++ (arguments.code frame s).globals), t'⟩)

variable {n : Node} {frame : Frame} {s : Emission} {term : Term}

theorem typeOf_run {type : Ty} (h : n.type? = some type) (e : Emission) :
    typeOf n e = .ok (type, e) := by
  unfold typeOf
  rw [h]
  rfl

/-- A value that is set for a node is the value that is found. -/
theorem Term.emitted_of_setPlace (hn : n.type? ≠ some .bool)
    (h : ∀ s b xs gs t, ExitTable.Quiet t → ∃ t', t'.Quiet ∧
      emitExpression (some frame) n ⟨s, CodeBuffer.append b
      xs gs, t⟩ = setPlace n.id (term.code frame s).place ⟨(term.code frame s).names,
        b.append (xs ++ (term.code
      frame s).steps.map (instr noExits)) (gs ++ (term.code frame s).globals), t'⟩) :
    term.Emitted frame n := by
  intro s b xs gs t ht
  obtain ⟨t', ht', run⟩ := h s b xs gs t ht
  obtain ⟨t'', ht'', place, set⟩ := setPlace_run _ _ t' n.id _ ht'
  refine ⟨t'', ht'', ?_⟩
  unfold emitValue
  rw [bind_ok (run.trans set)]
  unfold valueOf
  rw [if_neg hn, bind_ok (exitsOf_run n.id _)]
  simp only [place]
  rfl

/-- The code of a value that is not a truth value is written without looking for the value. -/
theorem Term.Emitted.expression (hn : n.type? ≠ some .bool) (h : term.Emitted frame n)
    (s : NameSupply)
    (b : CodeBuffer) (xs : List Instr) (gs : List Global) (t : ExitTable) (ht : t.Quiet) :
    ∃ t', t'.Quiet ∧ emitExpression (some frame) n ⟨s, b.append xs gs, t⟩
          = .ok ((), ⟨(term.code frame s).names,
            b.append (xs ++ (term.code frame s).steps.map (instr noExits))
            (gs ++ (term.code frame s).globals), t'⟩) := by
  obtain ⟨t', ht', run⟩ := h s b xs gs t ht
  refine ⟨t', ht', ?_⟩
  obtain ⟨⟨⟩, u, first, second⟩ := bind_eq_ok run
  unfold valueOf at second
  rw [if_neg hn, bind_ok (exitsOf_run n.id _)] at second
  cases hp : (u.exits.get n.id).place with
  | none =>
    simp only [hp] at second
    cases second
  | some r =>
    simp only [hp] at second
    have same : (Except.ok (r, u) : Except Fault (Register × Emission)) = _ := second
    rw [first]
    injection same with same
    injection same with _ same
    rw [same]

/-! ## Parts -/

attribute [local simp] instr Exit.target records slots fillExit records_append

section Parts

variable {s : NameSupply} {b : CodeBuffer} {xs : List Instr} {gs : List Global} {t : ExitTable}

theorem loadNumber_run {k : Int} :
    loadNumber k ⟨s, b.append xs gs, t⟩ = .ok (s.register, ⟨s.nextRegister,
          b.append (xs ++ [Instr.compute s.register .add (.number 0) (.number k)]) gs, t⟩) := by
  unfold loadNumber
  refine bind_then freshRegister_run ?_
  exact bind_ok (write_run (by exact ⟨trivial, trivial, trivial⟩) (by rfl))

theorem loadFrom_run {pointer : Register} (h : pointer.Generated) :
    loadFrom pointer ⟨s, b.append xs gs, t⟩
      = .ok ((loadCode pointer s).place, ⟨(loadCode pointer s).names,
          b.append (xs ++ (loadCode pointer s).steps.map (instr noExits)) gs, t⟩) := by
  unfold loadFrom
  refine bind_then freshRegister_run ?_
  exact bind_ok (write_run (by exact ⟨trivial, h⟩) (by rfl))

variable {frame : Frame}

theorem parameterSlot_run {index : Nat} {slot : Option Register}
    (h : frame.slots[index]? = some slot)
    (e : Emission) : parameterSlot (some frame) index e = .ok (slot, e) := by
  unfold parameterSlot
  simp only [h]
  rfl

theorem readBinding_run (hf : frame.Generated) {live : Live} {place : Place}
    (h : place.Reached frame live) : readBinding (some frame) place.binding ⟨s, b.append xs gs, t⟩
      = .ok ((place.code frame s).place, ⟨(place.code frame s).names,
          b.append (xs ++ (place.code frame s).steps.map (instr noExits)) gs, t⟩) := by
  cases place with
  | «variable» pointer => exact loadFrom_run trivial
  | parameter index =>
    have found := getElem?_eq_getElem (l := frame.slots) (i := index) h
    refine bind_then (parameterSlot_run found _) ?_
    unfold Place.code
    generalize frame.slots[index] = slot at found
    cases slot with
    | none =>
      simp only [found, map_nil, List.append_nil]
      rfl
    | some slot =>
      simp only [found]
      exact loadFrom_run (hf index slot found)

theorem Place.globals_code (frame : Frame) (s : NameSupply) (place : Place) :
    (place.code frame s).globals = [] := by
  cases place with
  | «variable» pointer => rfl
  | parameter index =>
    unfold Place.code
    simp only
    split <;> rfl

theorem truncate_run {value : Register} (h : value.Generated) :
    truncate value ⟨s, b.append xs gs, t⟩
      = .ok ((cutCode value s).place, ⟨(cutCode value s).names,
          b.append (xs ++ (cutCode value s).steps.map (instr noExits)) gs, t⟩) := by
  unfold truncate
  refine bind_then freshRegister_run ?_
  exact bind_ok (write_run (by exact ⟨trivial, h, trivial⟩) (by rfl))

theorem guardDivision_run {divisor : Register} (h : divisor.Generated) :
    guardDivision divisor ⟨s, b.append xs gs, t⟩
      = .ok ((), ⟨(guardCode divisor s).names,
          b.append (xs ++ (guardCode divisor s).steps.map (instr noExits)) gs, t⟩) := by
  let isZero := s.register
  let error := s.nextRegister.label
  let divide := s.nextRegister.nextLabel.label
  let test : Instr := .compare isZero .eq (.register divisor) (.number 0)
  -- The guard with the exits that its holes stand for: `true` to the error, `false` to the
  -- division.
  let head : List (Step Bool) := [branchOn isZero]
  let tail : List (Step Bool) :=
    [.branch isZero (.goto error) (.via false), .line (.label error),
     .line (.call none zeroDivisionHandler []), .jump (.via false)]
  unfold guardDivision
  refine bind_then freshRegister_run ?_
  refine bind_then (write_run (by exact ⟨trivial, h, trivial⟩) (by rfl)) ?_
  refine bind_then (branch_run (by exact trivial)) ?_
  refine bind_then label_run ?_
  refine bind_then (backpatch_run _ b gs t (xs ++ [test]) [.label error] head (fun _ => none) true
    error rfl ?_ rfl) ?_
  · rfl
  refine bind_then
    (write_run (by exact ⟨fun _ h => (by cases h), by decide, fun _ h => (by cases h)⟩) (by rfl)) ?_
  refine bind_then jump_run ?_
  refine bind_then label_run ?_
  refine (backpatch_run _ b gs t (xs ++ [test]) [.label divide] tail (fun _ => none) false divide
    rfl ?_ ?_).trans ?_
  · simp [head, tail, branchOn, error, isZero, divide]
  · simp [head, tail]
    omega
  · simp [guardCode, tail, error, isZero, divide, test]

theorem globals_computeCode (operator : Arithmetic) (type : Ty) (left right : Register)
    (s : NameSupply) : (computeCode operator type left right s).globals = [] := by
  unfold computeCode
  split <;> rfl

theorem globals_arithmeticCode (operator : Arithmetic) (type : Ty) (left right : Register)
    (s : NameSupply) : (arithmeticCode operator type left right s).globals = [] := by
  unfold arithmeticCode
  split <;> exact globals_computeCode operator type left right _

theorem emitArithmetic_run (operator : Arithmetic) (type : Ty) {left right : Register}
    (hl : left.Generated) (hr : right.Generated) :
    emitArithmetic operator type left right ⟨s, b.append xs gs, t⟩
      = .ok ((arithmeticCode operator type left right s).place,
            ⟨(arithmeticCode operator type left right s).names,
            b.append (xs ++ (arithmeticCode operator type left right s).steps.map
              (instr noExits)) gs,
            t⟩) := by
  -- The operation itself, wherever the guard has ended.
  have compute : ∀ s xs, (do
      let raw ← freshRegister
      write (.compute raw (operator.opcode type.isSigned) (.register left) (.register right))
      if type = .byte then truncate raw else return raw : EmitM Register) ⟨s, b.append xs gs, t⟩
        = .ok ((computeCode operator type left right s).place,
            ⟨(computeCode operator type left right s).names,
              b.append (xs ++ (computeCode operator type left right s).steps.map
                (instr noExits)) gs, t⟩) := by
    intro s xs
    refine bind_then freshRegister_run ?_
    refine bind_then (write_run (by exact ⟨trivial, hl, hr⟩) (by rfl)) ?_
    unfold computeCode
    by_cases hb : type = .byte
    · simp only [hb, if_true]
      refine (truncate_run (s.register_generated)).trans ?_
      rw [append_assoc]
      rfl
    · simp only [hb, if_false]
      rfl
  unfold emitArithmetic arithmeticCode
  by_cases hd : operator = .div
  · simp only [hd, if_true] at compute ⊢
    refine bind_then (guardDivision_run hr) ?_
    refine (compute _ _).trans ?_
    rw [append_assoc, map_append]
  · simp only [hd, if_false]
    exact compute s xs

/-- An arm of a conditional ends in a block of its own, and leaves it by one hole. -/
theorem closeArm_run :
    closeArm ⟨s, b.append xs gs, t⟩ = .ok ((s.label, ⟨b.lines.size + (xs.length + 2), .first⟩),
          ⟨s.nextLabel, b.append (xs ++ [Instr.jump (some s.label), .label s.label, .jump none]) gs,
            t⟩) := by
  unfold closeArm
  refine bind_then jump_run ?_
  refine bind_then label_run ?_
  refine bind_then (backpatch_run _ b gs t xs [.label s.label] [Step.jump (.via ())] (fun _ => none)
    () s.label rfl ?_ rfl) ?_
  · rfl
  refine bind_then jump_run ?_
  simp
  rfl

end Parts

/-! ## Registers of values -/

theorem Register.InUse.generated {r : Register} {n : Nat} (h : r.InUse n) : r.Generated := by
  cases r with
  | temp | argument => trivial
  | frame | named => exact h.elim

theorem Arguments.operands_code_generated (frame : Frame) (arguments : Arguments)
    (s : NameSupply) : ∀ a ∈ (arguments.code frame s).operands, a.2.Generated := by
  cases arguments with
  | nil => exact forall_mem_nil _
  | cons type value rest =>
    exact forall_mem_cons.mpr
      ⟨(value.place_inUse frame s).generated, rest.operands_code_generated frame _⟩

/-! ## Terms -/

section Terms

variable {frame : Frame} {id : NodeId} {l : Location}

theorem Term.emitted_number {k : Int} {value : LiteralValue} (hk : value.number? = some k) :
    (Term.number k).Emitted frame (.mk id l (.expression value.type (.literal value)) []) := by
  cases value with
  | bool _ | string _ => cases hk
  | int v =>
    obtain rfl : v.toInt = k := Option.some.inj hk
    refine Term.emitted_of_setPlace (fun h => by cases h) fun s b xs gs t ht => ⟨t, ht, ?_⟩
    rw [Term.code, List.append_nil]
    exact bind_ok loadNumber_run
  | byte v =>
    obtain rfl : (v.toNat : Int) = k := Option.some.inj hk
    refine Term.emitted_of_setPlace (fun h => by cases h) fun s b xs gs t ht => ⟨t, ht, ?_⟩
    rw [Term.code, List.append_nil]
    exact bind_ok loadNumber_run

theorem Term.emitted_text {text : String} :
    (Term.text text).Emitted frame (.mk id l (.expression .string (.literal (.string text)))
      []) := by
  refine Term.emitted_of_setPlace (fun h => by cases h) fun s b xs gs t ht => ⟨t, ht, ?_⟩
  rw [Term.code]
  refine bind_then constant_run ?_
  refine bind_then freshRegister_run ?_
  exact bind_ok (write_run (by exact ⟨trivial, trivial⟩) (by rfl))

variable {type : Ty} {x y : Node} {name : String} {ir : IrType} {operand : Term} {W : Type}

theorem Term.emitted_read (hf : frame.Generated) {live : Live} {place : Place}
    (hp : place.Reached frame live) (hty : type ≠ .bool) : (Term.read place).Emitted frame
      (.mk id l (.expression type (.identifier name place.binding)) []) := by
  refine Term.emitted_of_setPlace (by simpa [Node.type?, Node.kind] using hty)
    fun s b xs gs t ht => ⟨t, ht, ?_⟩
  rw [Term.code, Place.globals_code, List.append_nil]
  refine bind_then (readBinding_run hf hp) ?_
  unfold setResult
  rw [if_neg hty]
  rfl

variable {arguments : Arguments} {nodes : List Node} {parameters : List Ty}

/-- A call with a result is the code of its arguments and the line of the call. -/
theorem Arguments.Emitted.callResult (hc : Clean name) (hv : type ≠ .void)
    (hir : type.ir? = some ir)
    (ha : arguments.Emitted frame nodes parameters) (s : NameSupply) (b : CodeBuffer)
    (xs : List Instr) (gs : List Global) (t : ExitTable) (ht : t.Quiet) : ∃ t', t'.Quiet ∧
      emitExpression (some frame) (.mk id l (.expression type (.call name parameters)) nodes) ⟨s,
        b.append xs gs, t⟩ = setResult id type ((Term.call name ir arguments).code frame s).place
          ⟨((Term.call name ir arguments).code frame s).names, b.append
            (xs ++ ((Term.call name ir arguments).code frame s).steps.map (instr noExits))
            (gs ++ ((Term.call name ir arguments).code frame s).globals), t'⟩ := by
  obtain ⟨t', ht', run⟩ := ha s b xs gs t ht
  refine ⟨t', ht', ?_⟩
  rw [Term.code]
  refine bind_then run ?_
  unfold emitCall
  rw [if_neg hv]
  refine bind_then freshRegister_run ?_
  refine bind_then (irType_run hir _) ?_
  have plain : (Instr.call (some ((arguments.code frame s).names.register, ir)) name
      (arguments.code frame s).operands).Plain :=
    ⟨fun r hr => by obtain rfl := Option.mem_some.mp hr; exact trivial, hc,
      arguments.operands_code_generated frame s⟩
  refine bind_then (write_run plain (by rfl)) ?_
  rw [append_assoc, map_append]
  rfl

theorem Term.emitted_call (hc : Clean name) (hv : type ≠ .void) (hb : type ≠ .bool)
    (hir : type.ir? = some ir)
    (ha : arguments.Emitted frame nodes parameters) : (Term.call name ir arguments).Emitted frame
      (.mk id l (.expression type (.call name parameters)) nodes) := by
  refine Term.emitted_of_setPlace (by simpa [Node.type?, Node.kind] using hb)
    fun s b xs gs t ht => ?_
  obtain ⟨t', ht', run⟩ := ha.callResult hc hv hir s b xs gs t ht
  refine ⟨t', ht', run.trans ?_⟩
  unfold setResult
  rw [if_neg hb]
  rfl

theorem Term.emitted_arithmetic {operator : Arithmetic} (hty : type ≠ .bool) {left right : Term}
    (hx : left.Emitted frame x) (hy : right.Emitted frame y) :
    (Term.arithmetic operator type left right).Emitted frame
      (.mk id l (.expression type (.arithmetic operator)) [x, y]) := by
  refine Term.emitted_of_setPlace (by simpa [Node.type?, Node.kind] using hty)
    fun s b xs gs t ht => ?_
  obtain ⟨t₁, ht₁, run₁⟩ := hx s b xs gs t ht
  obtain ⟨t₂, ht₂, run₂⟩ := hy _ b _ _ t₁ ht₁
  refine ⟨t₂, ht₂, ?_⟩
  rw [Term.code]
  refine (bind_part run₁).trans ?_
  refine (bind_part run₂).trans ?_
  refine bind_then (emitArithmetic_run operator type (left.place_inUse frame _).generated
    (right.place_inUse frame _).generated) ?_
  simp only [globals_arithmeticCode, append_assoc, map_append, List.append_nil]
  rfl

theorem Term.emitted_cut (hty : x.type? = some .int) (hx : operand.Emitted frame x) :
    (Term.cut operand).Emitted frame (.mk id l (.expression .byte (.cast .byte)) [x]) := by
  refine Term.emitted_of_setPlace (fun h => by cases h) fun s b xs gs t ht => ?_
  obtain ⟨t₁, ht₁, run₁⟩ := hx s b xs gs t ht
  refine ⟨t₁, ht₁, ?_⟩
  rw [Term.code]
  refine bind_then (typeOf_run hty _) ?_
  refine (bind_part run₁).trans ?_
  refine bind_then (truncate_run (operand.place_inUse frame _).generated) ?_
  simp only [append_assoc, map_append]
  rfl

theorem Term.emitted_same {source target : Ty} (hty : x.type? = some source)
    (htarget : target ≠ .bool)
    (hcut : ¬(source = .int ∧ target = .byte)) (hx : operand.Emitted frame x) :
    (Term.same operand).Emitted frame (.mk id l (.expression target (.cast target)) [x]) := by
  refine Term.emitted_of_setPlace (by simpa [Node.type?, Node.kind] using htarget)
    fun s b xs gs t ht => ?_
  obtain ⟨t₁, ht₁, run₁⟩ := hx s b xs gs t ht
  refine ⟨t₁, ht₁, ?_⟩
  rw [Term.code]
  refine bind_then (typeOf_run hty _) ?_
  simp only [htarget, if_false]
  refine (bind_part run₁).trans ?_
  simp only [hcut, if_false]
  rfl

/-- A test whose exits are filled, one after the other. -/
theorem map_instr_toLabels (ρ : W → Target) (steps : List (Step Bool)) (onTrue onFalse : Label) :
    steps.map (instr (fillExit (fillExit (fun _ => none) true onTrue) false onFalse))
      = (steps.map (Step.bind (toLabels onTrue onFalse))).map (instr ρ) := by
  rw [map_instr_bind]
  congr 2
  funext value
  cases value <;> rfl

theorem records_toLabels [DecidableEq W] (w : W) (steps : List (Step Bool)) (onTrue onFalse : Label)
    (start : Nat) :
    records w start (steps.map (Step.bind (toLabels onTrue onFalse))) = [] := by
  apply records_bind_eq_nil
  intro value
  cases value <;> (intro h; cases h)

theorem Term.emitted_truth {test : Test} (hn : n.type? = some .bool) (h : test.Emitted frame n) :
    (Term.truth test).Emitted frame n := by
  intro s b xs gs t ht
  obtain ⟨t₁, ht₁, run₁⟩ := h s b xs gs t ht
  refine ⟨t₁, ht₁, ?_⟩
  rw [Term.code]
  generalize test.code frame s = c at run₁
  let onTrue := c.names.label
  let onFalse := c.names.nextLabel.label
  let join := c.names.nextLabel.nextLabel.label
  let tail : List (Step Unit) :=
    [Step.line (.label onTrue), .jump (.via ()), .line (.label onFalse), .jump (.via ())]
  unfold emitValue valueOf
  rw [if_pos hn]
  refine (bind_part run₁).trans ?_
  refine bind_then label_run ?_
  refine bind_then (backpatch_run _ b _ t₁ xs [.label onTrue] c.steps (fun _ => none) true onTrue
    rfl rfl rfl) ?_
  refine bind_then jump_run ?_
  refine bind_then label_run ?_
  refine bind_then (backpatch_run _ b _ t₁ xs [.label onTrue, .jump none, .label onFalse] c.steps
    (fillExit (fun _ => none) true onTrue) false onFalse rfl ?_ rfl) ?_
  · simp only [append_assoc]
    rfl
  refine bind_then jump_run ?_
  refine bind_then label_run ?_
  rw [map_instr_toLabels noExits]
  refine bind_then (backpatch_run _ b _ t₁ (xs ++ (c.steps.map (Step.bind
    (toLabels onTrue onFalse))).map (instr noExits)) [.label join] tail
    (fun _ => none) () join rfl ?_ ?_) ?_
  · simp [tail, join]
  · simp [tail]
    omega
  refine bind_then freshRegister_run ?_
  refine bind_then (write_run
      (by exact ⟨trivial, trivial, trivial, trivial, trivial⟩) (by rfl)) ?_
  simp [Code.materialize, tail, onTrue, onFalse, join]
  rfl

theorem Term.emitted_choice (hty : type ≠ .bool) (hir : type.ir? = some ir) {condition : Test}
    {thenValue elseValue : Term} {z : Node} (hx : condition.Emitted frame x)
    (hy : thenValue.Emitted frame y)
    (hz : elseValue.Emitted frame z) : (Term.choice ir condition thenValue elseValue).Emitted frame
      (.mk id l (.expression type .conditional) [x, y, z]) := by
  refine Term.emitted_of_setPlace (by simpa [Node.type?, Node.kind] using hty)
    fun s b xs gs t ht => ?_
  obtain ⟨t₁, ht₁, run₁⟩ := hx s b xs gs t ht
  rw [Term.code]
  generalize condition.code frame s = c at run₁
  let thenLabel := c.names.label
  let head := xs ++ c.steps.map (instr (fillExit (fun _ => none) true thenLabel)) ++
    [Instr.label thenLabel]
  obtain ⟨t₂, ht₂, run₂⟩ := hy c.names.nextLabel b head (gs ++ c.globals) t₁ ht₁
  have genA := (thenValue.place_inUse frame c.names.nextLabel).generated
  dsimp only
  generalize thenValue.code frame c.names.nextLabel = a at run₂ genA
  let elseLabel := a.names.nextLabel.label
  let arm : List Instr :=
    .label thenLabel :: a.steps.map (instr noExits) ++
      [Instr.jump (some a.names.label), .label a.names.label, .jump none] ++ [Instr.label elseLabel]
  let filled := c.steps.map (instr (fillExit (fillExit (fun _ => none) true thenLabel) false
    elseLabel))
  obtain ⟨t₃, ht₃, run₃⟩ := hz a.names.nextLabel.nextLabel b (xs ++ filled ++ arm)
    (gs ++ c.globals ++ a.globals) t₂ ht₂
  have genB := (elseValue.place_inUse frame a.names.nextLabel.nextLabel).generated
  generalize elseValue.code frame a.names.nextLabel.nextLabel = e at run₃ genB
  let join := e.names.nextLabel.label
  refine ⟨t₃, ht₃, ?_⟩
  refine (bind_part run₁).trans ?_
  refine bind_then label_run ?_
  refine bind_then (backpatch_run _ b _ t₁ xs [.label thenLabel] c.steps (fun _ => none) true
    thenLabel rfl rfl rfl) ?_
  simp only [hty, if_false]
  refine (bind_part run₂).trans ?_
  refine bind_then closeArm_run ?_
  refine bind_then label_run ?_
  refine bind_then (backpatch_run _ b _ t₂ xs arm c.steps
    (fillExit (fun _ => none) true thenLabel) false elseLabel rfl ?_ rfl) ?_
  · simp [head, arm, elseLabel]
  refine (bind_part run₃).trans ?_
  refine bind_then closeArm_run ?_
  refine bind_then label_run ?_
  -- Both arms leave for the join by the only exit of what stands behind the condition.
  let tail : List (Step Unit) :=
    .line (.label thenLabel) :: a.steps.map lift ++
      [Step.line (.jump (some a.names.label)), .line (.label a.names.label), .jump (.via ()),
       .line (.label elseLabel)] ++ e.steps.map lift ++
      [Step.line (.jump (some e.names.label)), .line (.label e.names.label), .jump (.via ())]
  refine bind_then (backpatch_run _ b _ t₃ (xs ++ filled) [.label join] tail (fun _ => none) () join
    rfl ?_ ?_) ?_
  · simp [-map_map, tail, arm, filled, join, map_instr_lift]
  · simp [tail, arm, head, filled, records_lift]
    omega
  refine bind_then freshRegister_run ?_
  refine bind_then (irType_run hir _) ?_
  refine bind_then (write_run
      (by exact ⟨trivial, genA, trivial, genB, trivial⟩) (by rfl)) ?_
  simp [-map_map, filled, tail, map_instr_toLabels noExits, map_instr_lift, thenLabel,
    elseLabel, join]
  rfl

end Terms

/-! ## Tests -/

section Tests

variable {frame : Frame} {id : NodeId} {l : Location}

/-- The lists that a node gets are the holes of the test. -/
theorem Test.emitted_of_setBranches {test : Test}
    (h : ∀ s b xs gs t, ExitTable.Quiet t → ∃ t', t'.Quiet ∧
      emitExpression (some frame) n ⟨s, CodeBuffer.append b xs gs, t⟩
        = setBranches n.id (records true (b.lines.size + xs.length) (test.code frame s).steps)
            (records false (b.lines.size + xs.length) (test.code frame s).steps)
            ⟨(test.code frame s).names, b.append
              (xs ++ (test.code frame s).steps.map (instr fun _ => none))
              (gs ++ (test.code frame s).globals), t'⟩) :
    test.Emitted frame n := by
  intro s b xs gs t ht
  obtain ⟨t', ht', run⟩ := h s b xs gs t ht
  exact takeBranches_run _ _ t' _ _ ht' run

theorem Test.emitted_constant {value : Bool} :
    (Test.constant value).Emitted frame (.mk id l
      (.expression .bool (.literal (.bool value))) []) := by
  refine Test.emitted_of_setBranches fun s b xs gs t ht => ⟨t, ht, ?_⟩
  rw [Test.code, List.append_nil]
  refine bind_then jump_run ?_
  cases value <;> rfl

/-- A branch on a register that has just been computed. -/
theorem branchOn_run (c : Code Empty) {condition : Register} (hc : condition.Generated)
    {test : Instr} (names : NameSupply) (b : CodeBuffer) (xs : List Instr) (gs : List Global)
    (t : ExitTable) :
    Emission.branchOn id condition
        ⟨names, b.append (xs ++ c.steps.map (instr noExits) ++ [test]) gs, t⟩
      = setBranches id
          (records true (b.lines.size + xs.length)
            (c.steps.map lift ++ [Step.line test, branchOn condition]))
          (records false (b.lines.size + xs.length)
            (c.steps.map lift ++ [Step.line test, branchOn condition]))
          ⟨names, b.append (xs ++ (c.steps.map lift ++ [Step.line test,
            branchOn condition]).map (instr fun _ => none)) gs, t⟩ := by
  refine bind_then (branch_run hc) ?_
  simp [-map_map, records_lift, map_instr_lift, branchOn, Nat.add_assoc]

/-- A number that is the result of a truth value is tested against zero. -/
theorem setResult_run (id : NodeId) (c : TermCode) (hc : c.place.Generated) (b : CodeBuffer)
    (xs : List Instr) (gs : List Global) (t : ExitTable) :
    setResult id .bool c.place
        ⟨c.names, b.append (xs ++ c.steps.map (instr noExits)) gs, t⟩
      = setBranches id
          (records true (b.lines.size + xs.length) c.nonzero.steps)
          (records false (b.lines.size + xs.length) c.nonzero.steps)
          ⟨c.nonzero.names, b.append (xs ++ c.nonzero.steps.map (instr fun _ => none)) gs,
            t⟩ := by
  unfold setResult
  rw [if_pos rfl]
  refine bind_then freshRegister_run ?_
  refine bind_then (write_run (by exact ⟨trivial, hc, trivial⟩) (by rfl)) ?_
  exact branchOn_run c.toCode c.names.register_generated _ b xs gs t

variable {x y : Node} {name : String} {left right operand : Test}

theorem Test.emitted_read (hf : frame.Generated) {live : Live} {place : Place}
    (hp : place.Reached frame live) :
    (Test.read place).Emitted frame (.mk id l (.expression .bool (.identifier name place.binding))
      []) := by
  refine Test.emitted_of_setBranches fun s b xs gs t ht => ⟨t, ht, ?_⟩
  have globals : (place.code frame s).nonzero.globals = [] := Place.globals_code frame s place
  rw [Test.code, globals, List.append_nil]
  refine bind_then (readBinding_run hf hp) ?_
  exact setResult_run _ _ (place.place_inUse frame s).generated b xs gs t

theorem Test.emitted_call (hc : Clean name) {arguments : Arguments} {nodes : List Node}
    {parameters : List Ty}
    (ha : arguments.Emitted frame nodes parameters) : (Test.call name arguments).Emitted frame
      (.mk id l (.expression .bool (.call name parameters)) nodes) := by
  refine Test.emitted_of_setBranches fun s b xs gs t ht => ?_
  obtain ⟨t', ht', run⟩ := ha.callResult hc (show Ty.bool ≠ .void by decide) rfl s b xs gs t ht
  rw [Test.code]
  have result := setResult_run id ((Term.call name .i32 arguments).code frame s)
    (Term.place_inUse frame _ s).generated b xs (gs ++ (arguments.code frame s).globals) t'
  exact ⟨t', ht', run.trans result⟩

theorem Test.emitted_not (hx : operand.Emitted frame x) :
    (Test.not operand).Emitted frame (.mk id l (.expression .bool .not) [x]) := by
  refine Test.emitted_of_setBranches fun s b xs gs t ht => ?_
  obtain ⟨t', ht', run⟩ := hx s b xs gs t ht
  refine ⟨t', ht', ?_⟩
  have whenTrue : ∀ value : Bool, (Exit.via !value : Exit Bool) = .via true ↔ value = false := by
    intro value
    cases value <;> decide
  have whenFalse : ∀ value : Bool, (Exit.via !value : Exit Bool) = .via false ↔ value = true := by
    intro value
    cases value <;> decide
  rw [Test.code]
  refine (bind_part run).trans ?_
  simp only [records_bind whenTrue, records_bind whenFalse, map_instr_bind]
  rfl

variable {W β : Type} {lists : Nat → List (Step W) → β}

/-- A test, and a part of the code that one of its exits leads to. -/
theorem Test.Emitted.then {emit : EmitM Unit} {take : EmitM β} {code : NameSupply → Code W}
    (hx : left.Emitted frame x) (hy : Writes emit take code lists) (value : Bool) (s : NameSupply)
    (b : CodeBuffer)
    (xs : List Instr) (gs : List Global) (t : ExitTable) (ht : t.Quiet) : let a := left.code frame s
    let c := code a.names.nextLabel
    let before := xs ++ a.steps.map (instr (fillExit (fun _ => none) value a.names.label)) ++
      [Instr.label a.names.label]
    ∃ t', t'.Quiet ∧ ∀ {γ : Type} (k : PatchList × PatchList → β → EmitM γ),
      (emitExpression (some frame) x >>= fun _ => takeBranches x.id >>= fun exits =>
        label >>= fun here =>
          backpatch (if value then exits.1 else exits.2) here >>= fun _ =>
            emit >>= fun _ => take >>= k exits)
        ⟨s, b.append xs gs, t⟩
      = k (records true (b.lines.size + xs.length) a.steps,
          records false (b.lines.size + xs.length) a.steps)
          (lists (b.lines.size + before.length) c.steps)
          ⟨c.names, b.append (before ++ c.steps.map (instr fun _ => none))
            (gs ++ a.globals ++ c.globals), t'⟩ := by
  obtain ⟨t₁, ht₁, run₁⟩ := hx s b xs gs t ht
  intro a c before
  obtain ⟨t₂, ht₂, run₂⟩ := hy a.names.nextLabel b before (gs ++ a.globals) t₁ ht₁
  refine ⟨t₂, ht₂, fun k => ?_⟩
  refine (bind_part run₁).trans ?_
  refine bind_then label_run ?_
  refine (bind_ok (backpatch_run _ b _ t₁ xs [.label a.names.label] a.steps
    (fun _ => none) value a.names.label rfl rfl ?_)).trans (bind_part run₂)
  cases value <;> rfl

theorem Test.emitted_and (hx : left.Emitted frame x) (hy : right.Emitted frame y) :
    (Test.and left right).Emitted frame (.mk id l (.expression .bool .and) [x, y]) := by
  refine Test.emitted_of_setBranches fun s b xs gs t ht => ?_
  obtain ⟨t', ht', run⟩ := hx.then hy true s b xs gs t ht
  refine ⟨t', ht', (run _).trans ?_⟩
  rw [Test.code]
  simp [-map_map, records_connect_self, records_connect_of_ne, map_instr_connect,
    Nat.add_assoc]
  rfl

theorem Test.emitted_or (hx : left.Emitted frame x) (hy : right.Emitted frame y) :
    (Test.or left right).Emitted frame (.mk id l (.expression .bool .or) [x, y]) := by
  refine Test.emitted_of_setBranches fun s b xs gs t ht => ?_
  obtain ⟨t', ht', run⟩ := hx.then hy false s b xs gs t ht
  refine ⟨t', ht', (run _).trans ?_⟩
  rw [Test.code]
  simp [-map_map, records_connect_self, records_connect_of_ne, map_instr_connect,
    Nat.add_assoc]
  rfl

theorem Test.emitted_compare {operator : Comparison} {leftType rightType : Ty} {left right : Term}
    (hxt : x.type? = some leftType) (hyt : y.type? = some rightType) (hx : left.Emitted frame x)
    (hy : right.Emitted frame y) :
    (Test.compare (operator.predicate (Ty.castUp leftType rightType).isSigned) left right).Emitted
      frame (.mk id l (.expression .bool (.comparison operator)) [x, y]) := by
  refine Test.emitted_of_setBranches fun s b xs gs t ht => ?_
  obtain ⟨t₁, ht₁, run₁⟩ := hx s b xs gs t ht
  obtain ⟨t₂, ht₂, run₂⟩ := hy _ b _ _ t₁ ht₁
  refine ⟨t₂, ht₂, ?_⟩
  rw [Test.code]
  refine bind_then (typeOf_run hxt _) ?_
  refine bind_then (typeOf_run hyt _) ?_
  refine (bind_part run₁).trans ?_
  refine (bind_part run₂).trans ?_
  refine bind_then freshRegister_run ?_
  refine bind_then (write_run (by exact ⟨trivial, (left.place_inUse frame _).generated,
    (right.place_inUse frame _).generated⟩) (by rfl)) ?_
  rw [append_assoc xs, ← map_append, append_assoc gs]
  exact branchOn_run ⟨_, [], s⟩ (NameSupply.register_generated _) _ b xs _ t₂

theorem Test.emitted_same {source : Ty} (hty : x.type? = some source)
    (hx : operand.Emitted frame x) :
    (Test.same operand).Emitted frame (.mk id l (.expression .bool (.cast .bool)) [x]) := by
  refine Test.emitted_of_setBranches fun s b xs gs t ht => ?_
  obtain ⟨t', ht', run⟩ := hx s b xs gs t ht
  refine ⟨t', ht', ?_⟩
  rw [Test.code]
  refine bind_then (typeOf_run hty _) ?_
  exact bind_part run

/-- A test, and two parts of the code that its exits lead to. -/
theorem Test.Emitted.both {emit₁ emit₂ : EmitM Unit} {take₁ take₂ : EmitM β}
    {code₁ code₂ : NameSupply → Code W}
    (hx : left.Emitted frame x) (hy : Writes emit₁ take₁ code₁ lists)
    (hz : Writes emit₂ take₂ code₂ lists)
    (s : NameSupply) (b : CodeBuffer) (xs : List Instr) (gs : List Global) (t : ExitTable)
    (ht : t.Quiet) :
    let c := left.code frame s
    let a := code₁ c.names.nextLabel
    let e := code₂ a.names.nextLabel
    let head :=
      xs ++ c.steps.map (instr (fillExit (fillExit (fun _ => none) true c.names.label) false
      a.names.label)) ++ [Instr.label c.names.label]
    let arm := head ++ a.steps.map (instr fun _ => none) ++ [Instr.label a.names.label]
    ∃ t', t'.Quiet ∧ ∀ {γ : Type} (k : β → β → EmitM γ),
      (emitExpression (some frame) x >>= fun _ => takeBranches x.id >>= fun exits =>
        label >>= fun onTrue =>
        backpatch exits.1 onTrue >>= fun _ =>
          emit₁ >>= fun _ => take₁ >>= fun first => label >>= fun onFalse =>
        backpatch exits.2 onFalse >>= fun _ => emit₂ >>= fun _ => take₂ >>= k first) ⟨s,
          b.append xs gs, t⟩
      = k (lists (b.lines.size + head.length) a.steps) (lists (b.lines.size + arm.length) e.steps)
          ⟨e.names,
            b.append (arm ++ e.steps.map (instr fun _ => none))
              (gs ++ c.globals ++ a.globals ++ e.globals),
            t'⟩ := by
  intro c a e head arm
  obtain ⟨t₁, ht₁, run₁⟩ := hx.then hy true s b xs gs t ht
  obtain ⟨t₂, ht₂, run₂⟩ := hz a.names.nextLabel b arm (gs ++ c.globals ++ a.globals) t₁ ht₁
  refine ⟨t₂, ht₂, fun k => (run₁ _).trans ?_⟩
  refine bind_then label_run ?_
  refine bind_then (backpatch_run _ b _ t₁ xs
    ([.label c.names.label] ++ a.steps.map (instr fun _ => none) ++ [.label a.names.label])
    c.steps (fillExit (fun _ => none) true c.names.label) false a.names.label rfl ?_ rfl) ?_
  · simp [-map_map, c, a]
  rw [← append_assoc, ← append_assoc]
  refine (bind_part run₂).trans ?_
  simp [head, c, a, e]

theorem Test.emitted_choice {condition thenTest elseTest : Test} {z : Node}
    (hx : condition.Emitted frame x)
    (hy : thenTest.Emitted frame y) (hz : elseTest.Emitted frame z) :
    (Test.choice condition thenTest elseTest).Emitted frame
      (.mk id l (.expression .bool .conditional) [x, y, z]) := by
  refine Test.emitted_of_setBranches fun s b xs gs t ht => ?_
  obtain ⟨t', ht', run⟩ := hx.both hy hz s b xs gs t ht
  refine ⟨t', ht', (run _).trans ?_⟩
  rw [Test.code]
  simp [-map_map, records_toLabels, map_instr_toLabels fun _ : Bool => none, Nat.add_assoc,
    Nat.add_comm 1]
  rfl

end Tests

/-! ## Induction -/

theorem Arguments.emitted_cons {type : Ty} {ir : IrType} (hir : type.ir? = some ir) {value : Term}
    {rest : Arguments} {ns : List Node} {types : List Ty} (hn : value.Emitted frame n)
    (hns : rest.Emitted frame ns types) :
    (Arguments.cons ir value rest).Emitted frame (n :: ns) (type :: types) := by
  intro s b xs gs t ht
  obtain ⟨t₁, ht₁, run₁⟩ := hn s b xs gs t ht
  obtain ⟨t₂, ht₂, run₂⟩ := hns _ b _ _ t₁ ht₁
  refine ⟨t₂, ht₂, ?_⟩
  rw [Arguments.code]
  refine (bind_part run₁).trans ?_
  refine bind_then (irType_run hir _) ?_
  refine bind_then run₂ ?_
  simp only [append_assoc, map_append]
  rfl

theorem Test.Of.type? {test : Test} (h : test.Of n) : n.type? = some .bool := by
  cases h <;> rfl

section Induction

variable {frame : Frame} {live : Live}

mutual

/-- The emission of a tree writes the code of the term that the tree stands for. -/
theorem Term.emitted (hf : frame.Generated) {term : Term} {n : Node} : term.Of n →
    term.All (Place.Reached frame live) cleanNames → term.Emitted frame n
  | .number hk, _ => Term.emitted_number hk
  | .text, _ => Term.emitted_text
  | .read hb, ha => Term.emitted_read hf ha hb
  | .call hv hb hir of, ha => Term.emitted_call ha.1 hv hb hir (Arguments.emitted hf of ha.2)
  | .truth of, ha => Term.emitted_truth of.type? (Test.emitted hf of ha)
  | .arithmetic numbers hx hy, ha =>
    Term.emitted_arithmetic numbers.ne_bool (Term.emitted hf hx ha.1) (Term.emitted hf hy ha.2)
  | .cut int hx, ha => Term.emitted_cut int (Term.emitted hf hx ha)
  | .same typed hb converts hx, ha =>
    Term.emitted_same typed hb (Ty.not_cut_of_convertibleTo converts) (Term.emitted hf hx ha)
  | .choice hb _ hir hc hx hy, ha => Term.emitted_choice hb hir (Test.emitted hf hc ha.1)
    (Term.emitted hf hx ha.2.1) (Term.emitted hf hy ha.2.2)

theorem Test.emitted (hf : frame.Generated) {test : Test} {n : Node} : test.Of n →
    test.All (Place.Reached frame live) cleanNames → test.Emitted frame n
  | .constant, _ => Test.emitted_constant
  | .read, ha => Test.emitted_read hf ha
  | .call of, ha => Test.emitted_call ha.1 (Arguments.emitted hf of ha.2)
  | .not hx, ha => Test.emitted_not (Test.emitted hf hx ha)
  | .and hx hy, ha => Test.emitted_and (Test.emitted hf hx ha.1) (Test.emitted hf hy ha.2)
  | .or hx hy, ha => Test.emitted_or (Test.emitted hf hx ha.1) (Test.emitted hf hy ha.2)
  | .compare typed typed' _ _ hx hy, ha =>
    Test.emitted_compare typed typed' (Term.emitted hf hx ha.1) (Term.emitted hf hy ha.2)
  | .same typed hx, ha => Test.emitted_same typed (Test.emitted hf hx ha)
  | .choice hc hx hy, ha =>
    Test.emitted_choice (Test.emitted hf hc ha.1) (Test.emitted hf hx ha.2.1)
    (Test.emitted hf hy ha.2.2)

theorem Arguments.emitted (hf : frame.Generated) {arguments : Arguments} {nodes : List Node}
    {types : List Ty} :
    arguments.Of nodes types → arguments.All (Place.Reached frame live) cleanNames →
      arguments.Emitted frame nodes types
  | .nil, _ => by
    intro s b xs gs t ht
    refine ⟨t, ht, ?_⟩
    simp only [emitArguments, Arguments.code, map_nil, List.append_nil]
    rfl
  | .cons hir hx hrest, ha =>
    Arguments.emitted_cons hir (Term.emitted hf hx ha.1) (Arguments.emitted hf hrest ha.2)

end

end Induction

end Backpatch
