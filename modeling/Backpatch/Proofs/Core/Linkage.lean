import Backpatch.Proofs.Core.Lines
import Backpatch.Proofs.Core.Names

/-!
# Calls and constants of core terms

What the code of a core term asks of the rest of the output, and what it adds to it: each call is of
a function that the term may call, with the types that it has, and the texts become constants that
are numbered one after the other.
-/

namespace Backpatch

open List

/-- A function as it is called, declared or defined. -/
structure Prototype where
  callee : String
  result : IrType
  parameters : List IrType
  variadic : Bool := false
  deriving DecidableEq, Repr

/-- The call that the line makes. -/
def Instr.call? : Instr → Option Prototype
  | call none callee arguments => some ⟨callee, .void, arguments.map Prod.fst, false⟩
  | call (some (_, type)) callee arguments => some ⟨callee, type, arguments.map Prod.fst, false⟩
  | callVariadic type fixed callee _ => some ⟨callee, type, fixed, true⟩
  | _ => none

/-- The line makes no other calls than these. -/
def Instr.Calls (P : Prototype → Prop) (i : Instr) : Prop := ∀ c ∈ i.call?, P c

/-- The constant that is defined. -/
def Global.constant? : Global → Option GlobalName
  | constant name _ _ => some name
  | _ => none

open Step

/-! ## Calls -/

/-- The functions that code may call: those that are known, the handler and, at the end of `main`,
`exit`. -/
structure Calls.Allowed (P : Prototype → Prop) (Q : Signatures) : Prop where
  known : ∀ name result parameters, Q name result parameters → P ⟨name, result, parameters, false⟩
  handler : P ⟨zeroDivisionHandler, .void, [], false⟩
  exit : P ⟨"exit", .void, [.i32], false⟩

theorem Calls.Allowed.covers {P : Prototype → Prop} {Q : Signatures}
    (allowed : Calls.Allowed P Q) : Instr.CoversAll (Instr.Calls P) Q where
  values i made := by
    cases i <;> first | exact fun _ none => absurd none (Option.not_mem_none _) | cases made
  handler := by simpa [Instr.Calls, Instr.call?] using allowed.handler
  calls name type operands r known := by
    simpa [Instr.Calls, Instr.call?] using allowed.known _ _ _ known
  effects i made := by
    cases i <;> first | exact fun _ none => absurd none (Option.not_mem_none _) | cases made
  runs name operands known := by
    simpa [Instr.Calls, Instr.call?] using allowed.known _ _ _ known
  exit := by simpa [Instr.Calls, Instr.call?] using allowed.exit

/-! ## Constants -/

/-- The constants are those with the numbers from one up to another. -/
structure Numbered (low : Nat) (globals : List Global) (high : Nat) : Prop where
  le : low ≤ high
  names : globals.map Global.constant? = (numbers low high).map fun n => some (.string n)

namespace Numbered

theorem nil (n : Nat) : Numbered n [] n := ⟨Nat.le_refl n, by rw [numbers_self]; rfl⟩

theorem append {a b c : Nat} {xs ys : List Global} (h : Numbered a xs b) (h' : Numbered b ys c) :
    Numbered a (xs ++ ys) c := by
  refine ⟨Nat.le_trans h.le h'.le, ?_⟩
  rw [map_append, h.names, h'.names, ← map_append, numbers_append h.le h'.le]

end Numbered

section Constants

variable {frame : Frame}

/-- The code adds the constants that are free before it and not behind it. -/
def Code.Adds {W : Type} (s : NameSupply) (c : Code W) : Prop :=
  Numbered s.globals c.globals c.names.globals

theorem Place.adds_code (place : Place) (s : NameSupply) : (place.code frame s).Adds s := by
  cases place with
  | «variable» pointer => exact .nil _
  | parameter index =>
    unfold Place.code
    dsimp only
    split
    · exact .nil _
    · exact .nil _

theorem adds_arithmeticCode (operator : Arithmetic) (type : Ty) (left right : Register)
    (s : NameSupply) : (arithmeticCode operator type left right s).Adds s := by
  have compute : ∀ s, (computeCode operator type left right s).Adds s := by
    intro s
    unfold computeCode
    dsimp only
    split
    · exact .nil _
    · exact .nil _
  unfold arithmeticCode
  split
  · exact compute (guardCode right s).names
  · exact compute s

mutual

theorem Term.adds_code : ∀ (t : Term) (s : NameSupply), (t.code frame s).Adds s
  | .number _, _ => .nil _
  | .text _, _ => ⟨Nat.le_succ _, by simp [Term.code, numbers_succ, NameSupply.nextGlobal,
      NameSupply.nextRegister, Global.constant?, NameSupply.global]⟩
  | .read place, s => place.adds_code s
  | .call _ _ arguments, s => arguments.adds_code s
  | .truth test, s => test.adds_code s
  | .arithmetic operator type left right, s =>
    ((left.adds_code s).append (right.adds_code _)).append (adds_arithmeticCode operator type _ _ _)
  | .cut operand, s | .same operand, s => operand.adds_code s
  | .choice _ condition thenValue elseValue, s =>
    let inside := (condition.code frame s).names.nextLabel
    ((condition.adds_code s).append (thenValue.adds_code inside)).append
      (elseValue.adds_code (thenValue.code frame inside).names.nextLabel.nextLabel)

theorem Test.adds_code : ∀ (t : Test) (s : NameSupply), (t.code frame s).Adds s
  | .constant _, _ => .nil _
  | .read place, s => place.adds_code s
  | .call _ arguments, s => arguments.adds_code s
  | .not operand, s | .same operand, s => operand.adds_code s
  | .and left right, s | .or left right,
    s => (left.adds_code s).append (right.adds_code (left.code frame s).names.nextLabel)
  | .compare _ left right, s => (left.adds_code s).append (right.adds_code _)
  | .choice condition thenTest elseTest, s =>
    let inside := (condition.code frame s).names.nextLabel
    ((condition.adds_code s).append (thenTest.adds_code inside)).append
      (elseTest.adds_code (thenTest.code frame inside).names.nextLabel)

theorem Arguments.adds_code : ∀ (a : Arguments) (s : NameSupply), (a.code frame s).Adds s
  | .nil, _ => .nil _
  | .cons _ value rest, s => (value.adds_code s).append (rest.adds_code _)

end

mutual

theorem Action.adds_code : ∀ (a : Action) (s : NameSupply), (a.code frame s).Adds s
  | .declare _ _ none, _ | .break, _ | .continue, _ | .return none, _ | .block .nil, _ => .nil _
  | .declare _ _ (some value), s | .assign _ value, s | .drop value, s | .return (some value), s =>
    value.adds_code s
  | .run _ arguments, s => arguments.adds_code s
  | .check condition, s => condition.adds_code s
  | .when condition body, s =>
    (condition.adds_code s).append (body.adds_code (condition.code frame s).names.nextLabel)
  | .either condition thenBranch elseBranch, s =>
    let inside := (condition.code frame s).names.nextLabel
    ((condition.adds_code s).append (thenBranch.adds_code inside)).append
      (elseBranch.adds_code (thenBranch.code frame inside).names.nextLabel)
  | .loop condition body, s =>
    (condition.adds_code s.nextLabel).append (body.adds_code
      (condition.code frame s.nextLabel).names.nextLabel)
  | .block (.cons first rest), s => Actions.adds_code (.cons first rest) s

theorem Actions.adds_code : ∀ (as : Actions) (s : NameSupply), (as.code frame s).Adds s
  | .nil, _ => .nil _
  | .cons first .nil, s => first.adds_code s
  | .cons first (.cons second rest), s =>
    (first.adds_code s).append (Actions.adds_code (.cons second rest)
      (first.code frame s).names.nextLabel)

end

end Constants

/-! ## Functions -/

namespace Routine

theorem adds_code (f : Routine) (s : NameSupply) : (f.code s).Adds s :=
  Action.adds_code (.block f.body) s

theorem calls_code {f : Routine} {limit : Nat} {Q : Signatures} (h : f.Scoped limit Q)
    {P : Prototype → Prop} (allowed : Calls.Allowed P Q) (s : NameSupply) :
    ∀ i ∈ (f.code s).steps.map (instr noExits), ∀ c ∈ i.call?, P c := by
  have calls := f.lines_code allowed.covers h s
  exact calls.instr (fun _ _ none => absurd none (Option.not_mem_none _)) fun _ _ _ _ _ none =>
    absurd none (Option.not_mem_none _)

end Routine

end Backpatch
