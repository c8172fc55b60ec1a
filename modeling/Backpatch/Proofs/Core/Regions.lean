import Backpatch.Proofs.Core.Names
import Backpatch.Proofs.Core.Scope

/-!
# Regions of code

The grammar of the generated code. Control enters a region only at its first line. It *passes*
through some regions, to whatever stands behind them, and *leaves* the others by branches to labels
that stand outside. The rules also keep account of the registers that have a value: a line may use
only these, and who goes to a label has to bring the registers that the code behind the label counts
on.

There are many kinds of terms and statements, but few ways in which their code is put together. That
the code of a function follows the rules (`Routine.leaves_code`) is all that is used afterwards to
reason about paths through it.
-/

namespace Backpatch

open List

/-- Registers that have a value. -/
abbrev Registers := Register → Prop

/-- The registers after a line that may give one. -/
def Registers.add (D : Registers) (result : Option Register) : Registers :=
  fun r => D r ∨ result = some r

/-- Labels outside a region, each with the registers that the code behind it counts on. -/
abbrev Outlets := Label → Registers → Prop

namespace Outlets

def empty : Outlets := fun _ _ => False

def add (X : Outlets) (l : Label) (S : Registers) : Outlets := fun k T => X k T ∨ k = l ∧ T = S

/-- The target is an exit that counts on no other registers than these. -/
def Admits (X : Outlets) (D : Registers) (target : Target) : Prop :=
  ∃ l S, target = some l ∧ X l S ∧ ∀ r, S r → D r

end Outlets

def Instr.isDivision : Instr → Bool
  | .compute _ .sdiv .. | .compute _ .udiv .. => true
  | _ => false

/-- A line inside a block that needs no other line beside it. -/
def Instr.isPlain (i : Instr) : Bool := i.isInner && !i.isDivision && i.arrivals.isEmpty

/-- The lines in front of a division. -/
def guardLines (isZero divisor : Register) (error divide : Label) : List Instr :=
  [.compare isZero .eq (.register divisor) (.number 0), .branch isZero (some error) (some divide),
   .label error, .call none zeroDivisionHandler [], .jump (some divide), .label divide]

mutual

/-- Control passes through the lines, and the registers `D` grow to `D'`. -/
inductive Passes : Registers → List Instr → Registers → Prop
  | nil {D} : Passes D [] D
  | line {D i} (plain : i.isPlain = true) (uses : ∀ r ∈ i.uses, D r) : Passes D [i]
    (D.add i.result?)
  | append {D D₁ D₂ xs ys} (first : Passes D xs D₁) (second : Passes D₁ ys D₂) : Passes D
    (xs ++ ys) D₂
  /-- A division with its guard. -/
  | division {D isZero divisor error divide r opcode dividend}
      (opcode_eq : (Instr.compute r opcode (.register dividend) (.register divisor)).isDivision
        = true)
      (ne : isZero ≠ divisor) (left : D dividend) (right : D divisor) :
      Passes D (guardLines isZero divisor error divide ++
        [.compute r opcode (.register dividend) (.register divisor)])
        ((D.add (some isZero)).add (some r))
  /-- A test whose outcome becomes a number. -/
  | outcome {D test onTrue onFalse join r}
      (condition : Leaves D ((Outlets.empty.add onFalse D).add onTrue D) test) :
      Passes D (test ++ [.label onTrue, .jump (some join), .label onFalse, .jump (some join),
          .label join, .phi r .i32 (.number 1) onTrue (.number 0) onFalse])
        (D.add (some r))
  /-- One of two values, as a test decides. -/
  | choice {D test first second D₁ D₂ onTrue onFalse firstExit secondExit join r type left right}
      (condition : Leaves D ((Outlets.empty.add onFalse D).add onTrue D) test)
      (passFirst : Passes D first D₁) (passSecond : Passes D second D₂) (given : D₁ left)
      (given' : D₂ right) :
      Passes D (test ++ .label onTrue :: first ++
          [.jump (some firstExit), .label firstExit, .jump (some join), .label onFalse] ++ second ++
          [.jump (some secondExit), .label secondExit, .jump (some join), .label join,
           .phi r type (.register left) firstExit (.register right) secondExit])
        (D.add (some r))

/-- Control leaves the lines by the exits, or returns from the function. -/
inductive Leaves : Registers → Outlets → List Instr → Prop
  | jump {D X target} (admits : X.Admits D target) : Leaves D X [.jump target]
  | branch {D X condition onTrue onFalse} (given : D condition) (admits : X.Admits D onTrue)
      (admits' : X.Admits D onFalse) : Leaves D X [.branch condition onTrue onFalse]
  | ret {D X value} (uses : ∀ r ∈ (Instr.ret value).uses, D r) : Leaves D X [.ret value]
  | after {D X D₁ xs ys} (first : Passes D xs D₁) (second : Leaves D₁ X ys) : Leaves D X (xs ++ ys)
  /-- One of the exits is connected to the code behind. -/
  | next {D X l S xs ys} (first : Leaves D (X.add l S) xs) (brings : ∀ r, S r → D r ∨
      r ∈ resultsOf xs) (second : Leaves S X ys) : Leaves D X (xs ++ .label l :: ys)
  /-- The code can come back to its beginning. -/
  | loop {D X l xs} (body : Leaves D (X.add l D) xs) : Leaves D X (.jump (some l) :: .label l :: xs)

end

/-- Two pieces of code, as a test decides. -/
theorem Leaves.fork {D : Registers} {X : Outlets} {test first second : List Instr}
    {onTrue onFalse : Label} (condition : Leaves D ((X.add onFalse D).add onTrue D) test)
    (one : Leaves D (X.add onFalse D) first) (two : Leaves D X second) :
    Leaves D X (test ++ .label onTrue :: first ++ .label onFalse :: second) :=
  .next (.next condition (fun _ => .inl) one) (fun _ => .inl) two

variable {i : Instr}

theorem Instr.isInner_of_isPlain (h : i.isPlain = true) : i.isInner = true :=
  (Bool.and_eq_true_iff.mp (Bool.and_eq_true_iff.mp h).1).1

theorem Instr.reads_of_isPlain (h : i.isPlain = true) : i.reads = i.uses := by
  have arrivals : i.arrivals = [] := List.isEmpty_iff.mp (Bool.and_eq_true_iff.mp h).2
  unfold reads
  rw [arrivals]
  exact List.append_nil _

mutual

theorem Passes.grows {D D' : Registers} {lines : List Instr} : Passes D lines D' → ∀ r, D r → D' r
  | .nil => fun _ => id
  | .line _ _ | .outcome _ | .choice _ _ _ _ _ => fun _ => .inl
  | .append first second => fun r hr => second.grows r (first.grows r hr)
  | .division _ _ _ _ => fun _ hr => .inl (.inl hr)

/-- They come from before or from the lines. -/
theorem Passes.bounded {D D' : Registers} {lines : List Instr} :
    Passes D lines D' → ∀ r, D' r → D r ∨ r ∈ resultsOf lines
  | .nil => fun _ => .inl
  | .line _ _ => fun r hr => hr.imp_right fun eq => by simp [eq]
  | .append first second => fun r hr => by
    have one := first.bounded r
    have two := second.bounded r hr
    grind
  | .division _ _ _ _ => fun r hr => by
    simp [guardLines, Instr.result?]
    rcases hr with (hr | eq) | eq
    · exact .inl hr
    · cases eq
      exact .inr (.inl rfl)
    · cases eq
      exact .inr (.inr rfl)
  | .outcome _ | .choice _ _ _ _ _ => fun r hr => hr.imp_right fun eq => by
    cases eq
    simp [Instr.result?]

end

namespace Outlets

variable {X : Outlets} {D D' S : Registers} {l : Label} {target : Target}

theorem Admits.mono (h : X.Admits D target) (grows : ∀ r, D r → D' r) : X.Admits D' target := by
  obtain ⟨k, T, eq, mem, brings⟩ := h
  exact ⟨k, T, eq, mem, fun r hr => grows r (brings r hr)⟩

theorem Admits.add (h : X.Admits D target) : (X.add l S).Admits D target := by
  obtain ⟨k, T, eq, mem, brings⟩ := h
  exact ⟨k, T, eq, .inl mem, brings⟩

theorem admits_new (brings : ∀ r, S r → D r) : (X.add l S).Admits D (some l) :=
  ⟨l, S, rfl, .inr ⟨rfl, rfl⟩, brings⟩

end Outlets

open Step Outlets

/-! ## Terms and tests -/

section Code

variable {D : Registers} {X : Outlets} {Q : Signatures} {frame : Frame}

/-- Control passes through the code of a term, and then its value is there. -/
def TermCode.Passes (D : Registers) (c : TermCode) : Prop :=
  ∃ D', Backpatch.Passes D (c.steps.map (instr noExits)) D' ∧ D' c.place

theorem passes_loadCode {pointer : Register} (h : D pointer) (s : NameSupply) :
    (loadCode pointer s).Passes D :=
  ⟨_, .line rfl (forall_mem_singleton.mpr h), .inr rfl⟩

variable {s : NameSupply} {place : Place} {ρ : Bool → Target} {onTrue : Label} {D' : Registers}
  {left right : Register} {live : Live} {target : Target}

theorem Place.passes_code (h : D (place.pointer frame)) (s : NameSupply) :
    (place.code frame s).Passes D := by
  cases place with
  | «variable» pointer => exact passes_loadCode h s
  | parameter index =>
    unfold Place.pointer at h
    unfold Place.code
    dsimp only at h ⊢
    split
    · rename_i found
      rw [found] at h
      exact passes_loadCode h s
    · rename_i missing
      refine ⟨D, .nil, ?_⟩
      cases found : frame.slots[index]? with
      | none =>
        rw [found] at h
        exact h
      | some slot =>
        cases slot with
        | none =>
          rw [found] at h
          exact h
        | some slot => exact absurd found (missing slot)

theorem leaves_compare {D₁ : Registers} {lines : List Instr} (h : Passes D lines D₁)
    (exits : ∀ w, X.Admits D (ρ w)) (s : NameSupply) (predicate : Predicate) {left right : Operand}
    (uses : ∀ r ∈ left.registers ++ right.registers, D₁ r) : Leaves D X (lines ++
      [.compare s.register predicate left right, .branch s.register (ρ true) (ρ false)]) := by
  have compare : Passes D₁ [.compare s.register predicate left right] (D₁.add (some s.register)) :=
    .line rfl uses
  have grows r (hr : D r) := compare.grows r (h.grows r hr)
  exact .after h (.after compare
    (.branch (.inr rfl) ((exits true).mono grows) ((exits false).mono grows)))

theorem leaves_nonzero {c : TermCode} (h : c.Passes D) (exits : ∀ w, X.Admits D (ρ w)) :
    Leaves D X (c.nonzero.steps.map (instr ρ)) := by
  obtain ⟨D₁, passes, place⟩ := h
  simp only [TermCode.nonzero, map_append, map_instr_lift]
  exact leaves_compare passes exits c.names .ne (forall_mem_singleton.mpr place)

theorem admits_toLabels {W : Type} {onFalse : Label} {ρ : W → Target} :
    ∀ w, ((X.add onFalse D).add onTrue D).Admits D ((toLabels onTrue onFalse w).target ρ) := by
  intro w
  cases w with
  | true => exact admits_new fun _ => id
  | false => exact (admits_new fun _ => id).add

theorem passes_materialize {c : Code Bool}
    (h : ∀ {X ρ}, (∀ w, X.Admits D (ρ w)) → Leaves D X (c.steps.map (instr ρ))) :
    c.materialize.Passes D := by
  refine ⟨D.add (some c.materialize.place), ?_, .inr rfl⟩
  simp only [Code.materialize, map_append, map_instr_bind]
  exact .outcome (h admits_toLabels)

theorem passes_cutCode {value : Register} (h : D value) (s : NameSupply) :
    (cutCode value s).Passes D :=
  ⟨_, .line rfl (forall_mem_singleton.mpr h), .inr rfl⟩

/-- A number that has been computed is cut to a byte where bytes are computed with. -/
theorem passes_computeCode {operator : Arithmetic} {type : Ty} {before : List Instr}
    (h : Passes D (before ++ [.compute s.register (operator.opcode type.isSigned)
      (.register left) (.register right)]) D') (value : D' s.register) :
    ∃ D', Passes D (before ++ (computeCode operator type left right s).steps.map (instr noExits)) D'
      ∧ D' (computeCode operator type left right s).place := by
  unfold computeCode
  dsimp only
  split
  · obtain ⟨D₂, cut, place⟩ := passes_cutCode value s.nextRegister
    have both := h.append cut
    rw [append_assoc] at both
    exact ⟨D₂, both, place⟩
  · exact ⟨D', h, value⟩

theorem passes_arithmeticCode (hl : D left) (hr : D right) (operator : Arithmetic) (type : Ty)
    (fresh : s.register ≠ right) : (arithmeticCode operator type left right s).Passes D := by
  unfold arithmeticCode
  split
  · rename_i division
    subst division
    refine passes_computeCode (.division ?_ fresh hl hr) (.inr rfl)
    cases type <;> rfl
  · rename_i other
    have plain : (Instr.compute s.register (operator.opcode type.isSigned) (.register left)
        (.register right)).isPlain = true := by
      cases operator with
      | div => exact absurd rfl other
      | _ => rfl
    have uses := forall_mem_cons.mpr ⟨hl, forall_mem_singleton.mpr hr⟩
    exact passes_computeCode (Passes.nil.append (.line plain uses)) (.inr rfl)

theorem Term.place_code_ne (t : Term) (s : NameSupply) :
    (t.code frame s).names.register ≠ (t.code frame s).place := by
  intro eq
  have inUse := t.place_inUse frame s
  rw [← eq] at inUse
  exact Nat.lt_irrefl _ inUse

mutual

theorem Term.passes_code {D : Registers} :
    ∀ (t : Term), t.All (fun place => D (place.pointer frame)) Q →
      ∀ (s : NameSupply), (t.code frame s).Passes D
  | .number _, _, s | .text _, _, s => ⟨_, .line rfl (forall_mem_nil _), .inr rfl⟩
  | .read _, h, s => Place.passes_code h s
  | .call _ result arguments, h, s => by
    obtain ⟨D₁, passes, operands⟩ := arguments.passes_code h.2 s
    simp only [TermCode.Passes, Term.code, map_append]
    exact ⟨_, .append passes (.line rfl operands), .inr rfl⟩
  | .truth test, h, s => passes_materialize (test.leaves_code h s)
  | .arithmetic operator type left right, h, s => by
    obtain ⟨D₁, first, placeLeft⟩ := left.passes_code h.1 s
    obtain ⟨D₂, second, placeRight⟩ :=
      right.passes_code (h.2.imp (fun _ => first.grows _) fun _ _ _ => id) _
    obtain ⟨D₃, third, place⟩ :=
      passes_arithmeticCode (second.grows _ placeLeft) placeRight operator type
      (right.place_code_ne _)
    simp only [TermCode.Passes, Term.code, map_append]
    exact ⟨D₃, .append (.append first second) third, place⟩
  | .cut operand, h, s => by
    obtain ⟨D₁, passes, value⟩ := operand.passes_code h s
    obtain ⟨D₂, cut, place⟩ := passes_cutCode value (operand.code frame s).names
    simp only [TermCode.Passes, Term.code, map_append]
    exact ⟨D₂, .append passes cut, place⟩
  | .same operand, h, s => operand.passes_code h s
  | .choice type condition thenValue elseValue, h, s => by
    obtain ⟨D₁, first, placeThen⟩ :=
      thenValue.passes_code h.2.1 (condition.code frame s).names.nextLabel
    obtain ⟨D₂, second, placeElse⟩ := elseValue.passes_code h.2.2 _
    refine ⟨D.add (some ((Term.choice type condition thenValue elseValue).code frame s).place), ?_,
      .inr rfl⟩
    simp only [Term.code, map_append, map_instr_bind, map_cons]
    exact .choice (condition.leaves_code h.1 s admits_toLabels) first second placeThen placeElse

theorem Test.leaves_code {D : Registers} :
    ∀ (t : Test), t.All (fun place => D (place.pointer frame)) Q →
      ∀ (s : NameSupply) {X : Outlets} {ρ : Bool → Target}, (∀ w, X.Admits D (ρ w)) →
      Leaves D X ((t.code frame s).steps.map (instr ρ))
  | .constant value, _, s, _, ρ, exits => .jump (exits value)
  | .read _, h, s, _, ρ, exits => leaves_nonzero (Place.passes_code h s) exits
  | .call _ arguments, h, s, _, ρ, exits => by
    obtain ⟨D₁, passes, operands⟩ := arguments.passes_code h.2 s
    refine leaves_nonzero ?_ exits
    simp only [TermCode.Passes, map_append]
    exact ⟨_, .append passes (.line rfl operands), .inr rfl⟩
  | .not operand, h, s, _, ρ, exits => by
    simp only [Test.code, map_instr_bind]
    exact operand.leaves_code h s fun w => exits !w
  | .and left right, h, s, _, ρ, exits => by
    simp only [Test.code, map_append, map_instr_bind, map_cons]
    refine .next (left.leaves_code h.1 s fun w => ?_) (fun _ => .inl)
      (right.leaves_code h.2 _ exits)
    cases w with
    | true => exact admits_new fun _ => id
    | false => exact (exits false).add
  | .or left right, h, s, _, ρ, exits => by
    simp only [Test.code, map_append, map_instr_bind, map_cons]
    refine .next (left.leaves_code h.1 s fun w => ?_) (fun _ => .inl)
      (right.leaves_code h.2 _ exits)
    cases w with
    | true => exact (exits true).add
    | false => exact admits_new fun _ => id
  | .compare predicate left right, h, s, _, ρ, exits => by
    obtain ⟨D₁, first, placeLeft⟩ := left.passes_code h.1 s
    obtain ⟨D₂, second, placeRight⟩ :=
      right.passes_code (h.2.imp (fun _ => first.grows _) fun _ _ _ => id) _
    simp only [Test.code, map_append, map_instr_lift, map_cons]
    exact leaves_compare (first.append second) exits _ predicate
      (forall_mem_cons.mpr ⟨second.grows _ placeLeft, forall_mem_singleton.mpr placeRight⟩)
  | .same operand, h, s, _, ρ, exits => operand.leaves_code h s exits
  | .choice condition thenTest elseTest, h, s, _, ρ, exits => by
    simp only [Test.code, map_append, map_instr_bind, map_cons]
    exact .fork (condition.leaves_code h.1 s admits_toLabels)
      (thenTest.leaves_code h.2.1 _ fun w => (exits w).add) (elseTest.leaves_code h.2.2 _ exits)

theorem Arguments.passes_code {D : Registers} :
    ∀ (a : Arguments), a.All (fun place => D (place.pointer frame)) Q → ∀ (s : NameSupply),
      ∃ D', Passes D ((a.code frame s).steps.map (instr noExits)) D' ∧
        ∀ r ∈ (a.code frame s).operands.flatMap fun o => o.2.registers, D' r
  | .nil, _, s => ⟨D, .nil, forall_mem_nil _⟩
  | .cons _ value rest, h, s => by
    obtain ⟨D₁, first, place⟩ := value.passes_code h.1 s
    obtain ⟨D₂, second, operands⟩ :=
      rest.passes_code (h.2.imp (fun _ => first.grows _) fun _ _ _ => id) _
    simp only [Arguments.code, map_append]
    exact ⟨D₂, .append first second, forall_mem_cons.mpr ⟨second.grows _ place, operands⟩⟩

end

/-! ## Actions -/

variable {limit : Nat}

/-- The registers that all of a function may rely on: its frame if there is one, and where its
parameters are. -/
structure Frame.Given (frame : Frame) (R : Register → Prop) : Prop where
  array : 0 < frame.size → R .frame
  parameters : ∀ index < frame.slots.length, R ((Place.parameter index).pointer frame)

theorem Place.Reached.given (h : place.Reached frame live) (given : frame.Given D)
    (reached : ∀ p ∈ live, D (.temp p.1)) : D (place.pointer frame) := by
  cases place with
  | «variable» pointer =>
    obtain ⟨offset, mem⟩ := h
    exact reached _ mem
  | parameter index => exact given.parameters index h

theorem Live.Free.given {pointer offset : Nat} (h : live.Free frame limit pointer offset)
    (given : frame.Given D) : D .frame :=
  given.array (Int.lt_of_le_of_lt (Int.natCast_nonneg offset) h.inFrame)

theorem Action.declared_mem_results (a : Action) {ρ : Leave → Target} :
    ∀ p ∈ a.declared, .temp p.1 ∈ resultsOf ((a.code frame s).steps.map (instr ρ)) := by
  cases a with
  | declare offset pointer initial =>
    refine forall_mem_singleton.mpr ?_
    cases initial with
    | none | some value => exact mem_cons_self
  | _ => exact forall_mem_nil _

theorem Frame.Given.mono (h : frame.Given D) (grows : ∀ r, D r → D' r) : frame.Given D' :=
  ⟨fun positive => grows _ (h.array positive), fun index bound =>
    grows _ (h.parameters index bound)⟩

/-- Where code goes on, the registers of the variables that it has declared may be counted on. -/
def Outlets.Continues (X : Outlets) (D : Registers) (declared : Live) (target : Target) : Prop :=
  ∀ D' : Registers, (∀ r, D r → D' r) → (∀ p ∈ declared, D' (.temp p.1)) → X.Admits D' target

theorem Outlets.Admits.continues {declared : Live} (h : X.Admits D target) :
    X.Continues D declared target :=
  fun _ grows _ => h.mono grows

theorem Outlets.Continues.admits (h : X.Continues D [] target) : X.Admits D target :=
  h D (fun _ => id) (forall_mem_nil _)

/-- Both jumps of a loop can be made in the code. -/
def Outlets.Loops (X : Outlets) (D : Registers) (ρ : Leave → Target) : Prop :=
  X.Admits D (ρ .break) ∧ X.Admits D (ρ .continue)

theorem admits_orNext {ρ : Leave → Target} (exit : X.Admits D (ρ .next)) :
    ∀ w, (X.add onTrue D).Admits D ((orNext onTrue w).target ρ) := by
  intro w
  cases w with
  | true => exact admits_new fun _ => id
  | false => exact exit.add

mutual

theorem Action.leaves_code {D : Registers} {inLoop : Bool} {live : Live} :
    ∀ (a : Action), frame.Given D → a.Scoped frame limit Q inLoop live →
      (∀ p ∈ live, D (.temp p.1)) →
      ∀ (s : NameSupply) {X : Outlets} {ρ : Leave → Target}, X.Continues D a.declared (ρ .next) →
      (inLoop = true → X.Loops D ρ) → Leaves D X ((a.code frame s).steps.map (instr ρ))
  | .declare offset pointer none, given, h, _, s, _, ρ, next, _ => by
    have address : Passes D [.slotAddress (.temp pointer) frame.size offset] _ :=
      .line rfl (forall_mem_singleton.mpr (h.given given))
    have store : Passes (D.add (some (.temp pointer))) [.store (.number 0) (.temp pointer)] _ :=
      .line rfl (forall_mem_singleton.mpr (.inr rfl))
    have both := address.append store
    exact .after both (.jump (next _ both.grows (forall_mem_singleton.mpr (.inl (.inr rfl)))))
  | .declare offset pointer (some value), given, h, reached, s, _, ρ, next, _ => by
    have address : Passes D [.slotAddress (.temp pointer) frame.size offset] _ :=
      .line rfl (forall_mem_singleton.mpr (h.1.given given))
    have all := h.2.imp (fun _ reach => address.grows _ (reach.given given reached)) fun _ _ _ => id
    obtain ⟨D₁, passes, place⟩ := value.passes_code all s
    have target : D₁ (.temp pointer) := passes.grows _ (.inr rfl)
    have store : Passes D₁ [.store (.register (value.code frame s).place) (.temp pointer)] _ :=
      .line rfl (forall_mem_cons.mpr ⟨place, forall_mem_singleton.mpr target⟩)
    have both := (address.append passes).append store
    have jump :=
      Leaves.after both (.jump (next _ both.grows (forall_mem_singleton.mpr (.inl target))))
    simp only [Action.code, map_append, map_cons, map_instr_lift]
    rw [append_assoc] at jump
    exact jump
  | .assign place value, given, h, reached, s, _, ρ, next, _ => by
    have all := h.2.2.imp (fun _ reach => reach.given given reached) fun _ _ _ => id
    obtain ⟨D₁, passes, result⟩ := value.passes_code all s
    have target := passes.grows _ (h.1.given given reached)
    have store : Passes D₁ [.store (.register (value.code frame s).place) (place.pointer frame)]
        _ :=
      .line rfl (forall_mem_cons.mpr ⟨result, forall_mem_singleton.mpr target⟩)
    simp only [Action.code, map_append, map_cons, map_instr_lift]
    exact .after passes (.after store (.jump (next.admits.mono fun r hr =>
      .inl (passes.grows r hr))))
  | .drop value, given, h, reached, s, _, ρ, next, _ => by
    have all :=
      Term.All.imp (t := value) (fun _ reach => reach.given given reached) (fun _ _ _ => id) h
    obtain ⟨D₁, passes, -⟩ := value.passes_code all s
    simp only [Action.code, map_append, map_instr_lift]
    exact .after passes (.jump (next.admits.mono passes.grows))
  | .run name arguments, given, h, reached, s, _, ρ, next, _ => by
    have all := h.2.imp (fun _ reach => reach.given given reached) fun _ _ _ => id
    obtain ⟨D₁, passes, operands⟩ := arguments.passes_code all s
    have call : Passes D₁ [.call none name (arguments.code frame s).operands] _ :=
      .line rfl operands
    simp only [Action.code, map_append, map_cons, map_instr_lift]
    exact .after passes (.after call (.jump (next.admits.mono fun r hr =>
      .inl (passes.grows r hr))))
  | .check condition, given, h, reached, s, _, ρ, next, _ => by
    have all := Test.All.imp (t := condition) (fun _ reach => reach.given given reached)
      (fun _ _ _ => id) h
    simp only [Action.code, map_append, map_cons, map_instr_bind]
    exact .next (S := D) (condition.leaves_code all s fun _ => admits_new fun _ => id)
      (fun _ => .inl) (.jump next.admits)
  | .when condition body, given, h, reached, s, _, ρ, next, out => by
    have all := h.1.imp (fun _ reach => reach.given given reached) fun _ _ _ => id
    simp only [Action.code, map_append, map_cons, map_instr_bind]
    exact .next (condition.leaves_code all s (admits_orNext next.admits)) (fun _ => .inl)
      (body.leaves_code given h.2 reached _ next.admits.continues out)
  | .either condition thenBranch elseBranch, given, h, reached, s, _, ρ, next, out => by
    have all := h.1.imp (fun _ reach => reach.given given reached) fun _ _ _ => id
    simp only [Action.code, map_append, map_cons, map_instr_bind]
    exact .fork (condition.leaves_code all s admits_toLabels)
      (thenBranch.leaves_code given h.2.1 reached _ next.admits.add.continues
        fun inside => ⟨(out inside).1.add, (out inside).2.add⟩)
      (elseBranch.leaves_code given h.2.2 reached _ next.admits.continues out)
  | .loop condition body, given, h, reached, s, _, ρ, next, _ => by
    have all := h.1.imp (fun _ reach => reach.given given reached) fun _ _ _ => id
    simp only [Action.code, map_append, map_cons, map_instr_bind]
    exact .loop (.next (condition.leaves_code all _ (admits_orNext next.admits.add)) (fun _ => .inl)
      (body.leaves_code given h.2 reached _ (admits_new fun _ => id).continues
        fun _ => ⟨next.admits.add, admits_new fun _ => id⟩))
  | .break, _, h, _, s, _, ρ, _, out => .jump (out h).1
  | .continue, _, h, _, s, _, ρ, _, out => .jump (out h).2
  | .return none, _, _, _, s, _, ρ, _, _ => .ret (forall_mem_nil _)
  | .return (some value), given, h, reached, s, _, ρ, _, _ => by
    have all := h.2.imp (fun _ reach => reach.given given reached) fun _ _ _ => id
    obtain ⟨D₁, passes, place⟩ := value.passes_code all s
    simp only [Action.code, map_append, map_instr_lift]
    exact .after passes (.ret (forall_mem_singleton.mpr place))
  | .block .nil, _, _, _, s, _, ρ, next, _ => .jump next.admits
  | .block (.cons first rest), given, h, reached, s, _, ρ, next, out =>
    Actions.leaves_code (.cons first rest) Actions.noConfusion given h reached s next.admits out

theorem Actions.leaves_code : ∀ (as : Actions), as ≠ .nil →
    ∀ {D : Registers} {inLoop : Bool} {live : Live},
    frame.Given D → as.Scoped frame limit Q inLoop live → (∀ p ∈ live, D (.temp p.1)) →
      ∀ (s : NameSupply)
      {X : Outlets} {ρ : Leave → Target}, X.Admits D (ρ .next) → (inLoop = true → X.Loops D ρ) →
        Leaves D X ((as.code frame s).steps.map (instr ρ))
  | .nil, nonempty, _, _, _, _, _, _, _, _, _, _, _ => absurd rfl nonempty
  | .cons first .nil, _, _, _, _, given, h, reached, s, _, ρ, next, out =>
    first.leaves_code given h.1 reached s next.continues out
  | .cons first (.cons second rest), _, D, _, _, given, h, reached, s, X, ρ, next, out => by
    let S : Registers := fun r => D r ∨ ∃ p ∈ first.declared, r = .temp p.1
    have grows : ∀ r, D r → S r := fun _ => .inl
    have declared : ∀ p ∈ first.declared, S (.temp p.1) := fun p mem => .inr ⟨p, mem, rfl⟩
    have here {l : Label} : (X.add l S).Continues D first.declared (some l) := by
      intro D' more given
      refine admits_new fun r hr => ?_
      rcases hr with hr | ⟨p, mem, rfl⟩
      · exact more r hr
      · exact given p mem
    simp only [Actions.code, map_append, map_cons, map_instr_bind]
    refine .next (S := S) (first.leaves_code given h.1 reached s here ?_) ?_ ?_
    · exact fun inside => ⟨(out inside).1.add, (out inside).2.add⟩
    · rintro r (hr | ⟨p, mem, rfl⟩)
      · exact .inl hr
      · exact .inr (first.declared_mem_results p mem)
    · exact Actions.leaves_code (.cons second rest) Actions.noConfusion (given.mono grows) h.2
        (forall_mem_append.mpr ⟨declared, fun p mem => grows _ (reached p mem)⟩) _ (next.mono grows)
        fun inside => ⟨(out inside).1.mono grows, (out inside).2.mono grows⟩

end

end Code

/-! ## Functions -/

namespace Routine

variable {D : Registers} {Q : Signatures} {limit : Nat}

/-- The parameters of a function, which have a value from its beginning. -/
def Entry (parameters : Nat) : Registers := fun r => ∃ i < parameters, r = .argument i

theorem passes_frameLines (f : Routine) : ∃ D', Passes D f.frameLines D' ∧
    (0 < f.frameSize → D' .frame) := by
  unfold frameLines
  split
  · exact ⟨_, .line rfl (forall_mem_nil _), fun _ => .inr rfl⟩
  · rename_i empty
    exact ⟨D, .nil, fun positive => absurd positive empty⟩

theorem passes_spillLines (slots : List (Option Nat)) (index : Nat)
    (arguments : ∀ i < index + slots.length, D (.argument i)) :
    ∃ D', Passes D (spillLines index slots) D' ∧ ∀ slot, some slot ∈ slots → D' (.temp slot) := by
  induction slots generalizing index D with
  | nil => exact ⟨D, .nil, fun _ mem => absurd mem not_mem_nil⟩
  | cons first slots ih =>
    rw [length_cons] at arguments
    have later : ∀ i < index + 1 + slots.length, D (.argument i) :=
      fun i hi => arguments i (by omega)
    cases first with
    | none =>
      obtain ⟨D', passes, given⟩ := ih (index + 1) later
      refine ⟨D', passes, fun slot mem => ?_⟩
      rcases mem_cons.mp mem with eq | mem
      · cases eq
      · exact given slot mem
    | some first =>
      have place : Passes D [.allocaSlot (.temp first)] _ := .line rfl (forall_mem_nil _)
      have store : Passes (D.add (some (.temp first)))
          [.store (.register (.argument index)) (.temp first)] _ :=
        .line rfl (forall_mem_cons.mpr ⟨.inl (arguments index (by omega)),
          forall_mem_singleton.mpr (.inr rfl)⟩)
      have both := place.append store
      obtain ⟨D', passes, given⟩ := ih (index + 1) fun i hi => both.grows _ (later i hi)
      refine ⟨D', both.append passes, fun slot mem => ?_⟩
      rcases mem_cons.mp mem with eq | mem
      · cases eq
        exact passes.grows _ (.inl (.inr rfl))
      · exact given slot mem

theorem leaves_endLines (f : Routine) {X : Outlets} : Leaves D X f.endLines := by
  have ends (D : Registers) : Leaves D X
      [.ret (if f.returnType = .void then none else some (f.returnType.ir, .number 0))] := by
    refine .ret ?_
    split
    · exact forall_mem_nil _
    · exact forall_mem_nil _
  unfold endLines
  split
  · have call : Passes D [.call none "exit" [(.i32, .number 0)]] _ := .line rfl (forall_mem_nil _)
    exact .after call (ends _)
  · exact ends D

/-- The lines of a function behind its entry. -/
def bodyLines (f : Routine) (s : NameSupply) : List Instr :=
  let body := Action.code f.frame (.block f.body) s
  body.steps.map (instr fun _ => some body.names.label) ++ .label body.names.label :: f.endLines

theorem map_instr_code (f : Routine) (s : NameSupply) :
    (f.code s).steps.map (instr noExits) = f.frameLines ++ spillLines 0 f.slots
      ++ f.bodyLines s := by
  have lines : ∀ xs : List Instr, (xs.map Step.line).map (instr noExits) = xs := fun xs => by
    rw [map_map]
    exact map_id _
  unfold code bodyLines
  rw [map_append, map_append, lines, lines, map_instr_bind, append_assoc]
  rfl

/-- Behind its entry, a function needs no more than its frame and its parameters. -/
theorem leaves_bodyLines {f : Routine} (h : f.Scoped limit Q) (given : f.frame.Given D)
    (s : NameSupply) : Leaves D Outlets.empty (f.bodyLines s) :=
  .next (S := D) (Action.leaves_code (.block f.body) given h.body (forall_mem_nil _) s
    (admits_new fun _ => id).continues (fun inside => absurd inside Bool.false_ne_true))
      (fun _ => .inl) f.leaves_endLines

/-- The code of a function is a region that starts with the parameters and has no other end than
that of the function. -/
theorem leaves_code {f : Routine} (h : f.Scoped limit Q) (s : NameSupply) :
    Leaves (Entry f.parameters.length) Outlets.empty ((f.code s).steps.map (instr noExits)) := by
  obtain ⟨D₁, reserve, array⟩ := f.passes_frameLines (D := Entry f.parameters.length)
  obtain ⟨D₂, spill, slots⟩ := passes_spillLines f.slots 0 (D := D₁) fun i hi =>
    reserve.grows _ ⟨i, by rw [← h.slots]; omega, rfl⟩
  have given : f.frame.Given D₂ := by
    refine ⟨fun positive => spill.grows _ (array (Int.ofNat_lt.mp positive)), fun index bound => ?_⟩
    have length : f.frame.slots.length = f.slots.length := length_map _
    have found : f.frame.slots[index]? = (f.slots[index]?).map (Option.map .temp) := getElem?_map
    unfold Place.pointer
    dsimp only
    rw [found]
    cases slot : f.slots[index]? with
    | none =>
      have beyond := List.getElem?_eq_none_iff.mp slot
      omega
    | some slot' =>
      cases slot' with
      | none => exact spill.grows _ (reserve.grows _ ⟨index, by rw [← h.slots]; omega, rfl⟩)
      | some r => exact slots r (mem_of_getElem? slot)
  rw [map_instr_code]
  exact .after (reserve.append spill) (leaves_bodyLines h given s)

end Routine

end Backpatch
