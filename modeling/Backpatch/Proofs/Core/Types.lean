import Backpatch.Proofs.Core.Lines
import Backpatch.Proofs.Core.Names

/-!
# Types of core terms

The rules by which core terms have types, in terms of the types of the source, and what they mean
for the code: a term that has a type leaves its value in a register of the representation of that
type, and every line of its code finds the registers that it reads at the types at which it reads
them (`Routine.wellTyped_code`).

Truth values have two representations. As long as a test is only branched on, its outcome is one
bit; a truth value that is kept is a number.
-/

namespace Backpatch

open List

/-! ## Types of terms -/

/-- What the names of a function stand for: its variables by the numbers of their registers, its
parameters in their order, and the functions that it may call. -/
structure Types where
  locals : Nat → Option Ty
  parameters : List Ty
  functions : String → Option (Ty × List Ty)

namespace Types

def place (Γ : Types) : Place → Option Ty
  | .variable pointer => Γ.locals pointer
  | .parameter index => Γ.parameters[index]?

end Types

/-- The type is that of values. -/
def Ty.isValue : Ty → Bool
  | void | invalid => false
  | byte | int | bool | string => true

/-- What can be read is a value that can be stored, and what is passed to functions and comes back
from them is a value, if anything comes back. -/
structure Types.Sound (Γ : Types) : Prop where
  places : ∀ place type, Γ.place place = some type → type.isSpecial = false
  results : ∀ name result parameters, Γ.functions name = some (result, parameters) →
    result ≠ .invalid
  parameters : ∀ name result parameters, Γ.functions name = some (result, parameters) →
    ∀ type ∈ parameters, type.isValue = true

/-- The number is one of the type. -/
def Ty.Includes : Ty → Int → Prop
  | int, n => -2147483648 ≤ n ∧ n ≤ 2147483647
  | byte, n => 0 ≤ n ∧ n ≤ 255
  | bool, _ | string, _ | void, _ | invalid, _ => False

section Rules

variable (Γ : Types)

mutual

def Term.HasType : Term → Ty → Prop
  | .number value, type => type.Includes value
  | .text _, type => type = .string
  | .read place, type => type ≠ .bool ∧ Γ.place place = some type
  | .call name result arguments, type =>
    type ≠ .void ∧ type ≠ .bool ∧ result = type.ir ∧
      ∃ parameters, Γ.functions name = some (type, parameters) ∧ arguments.HaveTypes parameters
  | .truth test, type => type = .bool ∧ test.WellTyped
  | .arithmetic _ common left right, type =>
    type = common ∧ ∃ a b, left.HasType a ∧ right.HasType b ∧ a.isNumeric = true ∧
      b.isNumeric = true ∧ common = Ty.castUp a b
  | .cut operand, type => type = .byte ∧ operand.HasType .int
  | .same operand, type =>
    type.isNumeric = true ∧ ∃ source, operand.HasType source ∧ source.convertibleTo type = true
  | .choice result condition thenValue elseValue, type =>
    result = type.ir ∧ type ≠ .bool ∧ type.isValue = true ∧ condition.WellTyped ∧
      ∃ a b, thenValue.HasType a ∧ elseValue.HasType b ∧ type = Ty.castUp a b

def Test.WellTyped : Test → Prop
  | .constant _ => True
  | .read place => Γ.place place = some .bool
  | .call name arguments =>
    ∃ parameters, Γ.functions name = some (.bool, parameters) ∧ arguments.HaveTypes parameters
  | .not operand | .same operand => operand.WellTyped
  | .and left right | .or left right => left.WellTyped ∧ right.WellTyped
  | .compare _ left right =>
    ∃ a b, left.HasType a ∧ right.HasType b ∧ a.isNumeric = true ∧ b.isNumeric = true
  | .choice condition thenTest elseTest =>
    condition.WellTyped ∧ thenTest.WellTyped ∧ elseTest.WellTyped

/-- Each argument converts to the parameter in its place. -/
def Arguments.HaveTypes : Arguments → List Ty → Prop
  | .nil, types => types = []
  | .cons ir value rest, types => ∃ type types', types = type :: types' ∧ ir = type.ir ∧
      (∃ source, value.HasType source ∧ source.convertibleTo type = true) ∧ rest.HaveTypes types'

end

/-- The term has a type that converts to this one. -/
def Term.ConvertsTo (t : Term) (type : Ty) : Prop :=
  ∃ source, t.HasType Γ source ∧ source.convertibleTo type = true

variable (returnType : Ty)

mutual

def Action.WellTyped : Action → Prop
  | .declare _ pointer none => ∃ type, Γ.locals pointer = some type
  | .declare _ pointer (some value) =>
    ∃ type, Γ.locals pointer = some type ∧ value.ConvertsTo Γ type
  | .assign place value => ∃ type, Γ.place place = some type ∧ value.ConvertsTo Γ type
  | .drop value => ∃ type, value.HasType Γ type
  | .run name arguments =>
    ∃ parameters, Γ.functions name = some (.void, parameters) ∧ arguments.HaveTypes Γ parameters
  | .check condition => condition.WellTyped Γ
  | .when condition body | .loop condition body => condition.WellTyped Γ ∧ body.WellTyped
  | .either condition thenBranch elseBranch =>
    condition.WellTyped Γ ∧ thenBranch.WellTyped ∧ elseBranch.WellTyped
  | .break | .continue | .return none => True
  | .return (some value) => value.ConvertsTo Γ returnType
  | .block body => body.WellTyped

def Actions.WellTyped : Actions → Prop
  | .nil => True
  | .cons first rest => first.WellTyped ∧ rest.WellTyped

end

end Rules

/-! ## Types of registers -/

/-- Types of registers in the code. -/
inductive RegisterType
  /-- The outcome of a comparison. -/
  | bit
  | word
  /-- The address of a string constant. -/
  | text
  /-- The address of a number. -/
  | cell
  /-- The address of the frame. -/
  | array (size : Int)
  deriving DecidableEq, Repr

def IrType.register? : IrType → Option RegisterType
  | i32 => some .word
  | pointer => some .text
  | void => none

/-- The type of the registers that hold values of the type. -/
def Ty.register : Ty → RegisterType
  | string => .text
  | _ => .word

variable {a b type : Ty}

theorem Ty.register?_ir (h : type.isValue = true) : type.ir.register? = some type.register := by
  cases type with
  | void | invalid => cases h
  | _ => rfl

theorem Ty.register_of_isNumeric (h : type.isNumeric = true) : type.register = .word := by
  cases type with
  | byte | int => rfl
  | _ => cases h

theorem Ty.register_of_isSpecial (h : type.isSpecial = false) : type.register = .word := by
  cases type with
  | byte | int | bool => rfl
  | _ => cases h

theorem Ty.isValue_of_isSpecial (h : type.isSpecial = false) : type.isValue = true := by
  cases type with
  | byte | int | bool => rfl
  | _ => cases h

theorem Ty.register_of_convertibleTo (h : a.convertibleTo b = true) : a.register = b.register := by
  revert h
  cases a <;> cases b <;> decide

theorem Ty.isNumeric_castUp (ha : a.isNumeric = true) (hb : b.isNumeric = true) :
    (Ty.castUp a b).isNumeric = true := by
  revert ha hb
  cases a <;> cases b <;> decide

theorem Ty.register_castUp (h : (Ty.castUp a b).isValue = true) :
    a.register = (Ty.castUp a b).register ∧ b.register = (Ty.castUp a b).register := by
  revert h
  cases a <;> cases b <;> decide

/-- Types of the registers of a function. -/
abbrev RegisterTypes := Register → Option RegisterType

def Operand.HasType (T : RegisterTypes) : Operand → RegisterType → Prop
  | register r, type => T r = some type
  | number _, type => type = .word

namespace Instr

/-- The type of the register that the line gives a value. -/
def resultType? : Instr → Option RegisterType
  | allocaFrame size => some (.array size)
  | allocaSlot _ | slotAddress .. => some .cell
  | load .. | compute .. => some .word
  | compare .. => some .bit
  | phi _ type .. | call (some (_, type)) .. => type.register?
  | stringAddress .. => some .text
  | _ => none

/-- Only a frame is an array. -/
theorem eq_allocaFrame {i : Instr} {size : Int} (h : i.resultType? = some (.array size)) :
    i = .allocaFrame size := by
  have noArray (type : IrType) : type.register?
    ≠ some (.array size) := by cases type <;> simp [IrType.register?]
  cases i with
  | allocaFrame size' =>
    cases h
    rfl
  | phi r type => exact absurd h (noArray type)
  | call result =>
    rcases result with _ | ⟨r, type⟩
    · cases h
    · exact absurd h (noArray type)
  | _ => cases h

/-- The argument has the type that is written before it. -/
def ArgumentTyped (T : RegisterTypes) (argument : IrType × Operand) : Prop :=
  ∃ type, argument.1.register? = some type ∧ argument.2.HasType T type

/-- Every register that the line reads has the type at which the line reads it. A line that returns
does so with the type of the function, an element of the frame is inside it, and lines written by
hand have no types. -/
def WellTyped (T : RegisterTypes) (result : IrType) : Instr → Prop
  | store value pointer => value.HasType T .word ∧ T pointer = some .cell
  | load _ pointer => T pointer = some .cell
  | compute _ _ left right | compare _ _ left right => left.HasType T .word ∧ right.HasType T .word
  | branch condition .. => T condition = some .bit
  | phi _ type first _ second _ => ArgumentTyped T (type, first) ∧ ArgumentTyped T (type, second)
  | call none _ arguments | callVariadic _ _ _ arguments => ∀ a ∈ arguments, ArgumentTyped T a
  | call (some (_, type)) _ arguments => type ≠ .void ∧ ∀ a ∈ arguments, ArgumentTyped T a
  | ret none => result = .void
  | ret (some (type, value)) => type = result ∧ ArgumentTyped T (type, value)
  | slotAddress _ size offset => T .frame = some (.array size) ∧ 0 ≤ offset ∧ offset < size
  | verbatim .. => False
  | define .. | close | blank | label _ | allocaFrame _ | allocaSlot _ | jump
    _ | stringAddress .. => True

/-- The register that the line gives a value has the type of that value. -/
def Given (T : RegisterTypes) (i : Instr) : Prop := ∀ r, i.result? = some r → T r = i.resultType?

end Instr

open Step

/-! ## Code of terms -/

theorem Ty.isValue_of_isNumeric (h : type.isNumeric = true) : type.isValue = true := by
  cases type with
  | byte | int => rfl
  | _ => cases h

attribute [local simp] Instr.WellTyped Instr.Given Instr.result? Instr.resultType? Operand.HasType
  Term.code branchOn

section Code

variable {Γ : Types} {T : RegisterTypes} {frame : Frame} {Q : Signatures} {R : IrType}

variable {s : NameSupply} {type : Ty} {place : Place} {operator : Arithmetic}
  {left right : Register} {live : Live}

/-- What has a type has a value. -/
theorem Term.HasType.isValue (sound : Γ.Sound) {t : Term} (h : t.HasType Γ type) :
    type.isValue = true := by
  cases t with
  | number value =>
    cases type with
    | int | byte => rfl
    | _ => exact h.elim
  | text => exact h ▸ rfl
  | read place => exact Ty.isValue_of_isSpecial (sound.places _ _ h.2)
  | call name ir arguments =>
    obtain ⟨notVoid, -, -, parameters, found, -⟩ := h
    have valid := sound.results _ _ _ found
    cases type with
    | void => exact absurd rfl notVoid
    | invalid => exact absurd rfl valid
    | _ => rfl
  | truth | cut => exact h.1 ▸ rfl
  | arithmetic operator common left right =>
    obtain ⟨rfl, a, b, -, -, ha, hb, rfl⟩ := h
    exact Ty.isValue_of_isNumeric (Ty.isNumeric_castUp ha hb)
  | same => exact Ty.isValue_of_isNumeric h.1
  | choice => exact h.2.2.1

/-- The registers of the lines have the types that the lines give them. -/
abbrev AllGiven {W : Type} (T : RegisterTypes) (steps : List (Step W)) : Prop :=
  AllFulfil (Instr.Given T) (fun _ => True) steps

/-- The lines read registers at the types that these have. -/
abbrev AllTyped {W : Type} (T : RegisterTypes) (R : IrType) (steps : List (Step W)) : Prop :=
  AllFulfil (Instr.WellTyped T R) (fun c => T c = some .bit) steps

/-- The register where the place is kept has the type for that. -/
def Place.TypedIn (T : RegisterTypes) (frame : Frame) : Place → Prop
  | .variable pointer => T (.temp pointer) = some .cell
  | .parameter index =>
    match frame.slots[index]? with
    | some (some slot) => T slot = some .cell
    | _ => T (.argument index) = some .word

/-- The code of a value of the representation. -/
structure TermCode.Typed (T : RegisterTypes) (R : IrType) (c : TermCode) (type : RegisterType) :
    Prop where
  lines : AllTyped T R c.steps
  place : T c.place = some type

theorem typed_loadCode {pointer : Register} (h : T pointer = some .cell)
    (given : AllGiven T (loadCode pointer s).steps) : (loadCode pointer s).Typed T R .word := by
  simp [loadCode] at given
  exact ⟨by simp [loadCode, h], given⟩

theorem Place.typed_code (h : place.TypedIn T frame)
    (given : AllGiven T (place.code frame s).steps) : (place.code frame s).Typed T R .word := by
  cases place with
  | «variable» pointer => exact typed_loadCode h given
  | parameter index =>
    unfold TypedIn at h
    unfold Place.code at given ⊢
    dsimp only at h given ⊢
    split
    · rename_i found
      simp only [found] at h given
      exact typed_loadCode h given
    · rename_i missing
      split at h
      · rename_i slot found
        exact absurd found (missing slot)
      · exact ⟨allFulfil_nil, h⟩

theorem typed_nonzero {c : TermCode} (given : AllGiven T c.nonzero.steps)
    (h : AllGiven T c.steps → c.Typed T R .word) : AllTyped T R c.nonzero.steps := by
  simp [TermCode.nonzero] at given
  obtain ⟨lines, place⟩ := h given.1
  simp [TermCode.nonzero, lines, place, given.2]

theorem typed_materialize {c : Code Bool} (given : AllGiven T c.materialize.steps)
    (h : AllGiven T c.steps → AllTyped T R c.steps) : c.materialize.Typed T R .word := by
  simp [Code.materialize, IrType.register?] at given
  refine ⟨?_, given.2⟩
  simp [Code.materialize, Instr.ArgumentTyped, IrType.register?, h given.1]

theorem typed_cutCode {value : Register} (h : T value = some .word)
    (given : AllGiven T (cutCode value s).steps) : (cutCode value s).Typed T R .word := by
  simp [cutCode] at given
  exact ⟨by simp [cutCode, h], given⟩

theorem typed_computeCode (hl : T left = some .word) (hr : T right = some .word)
    (given : AllGiven T (computeCode operator type left right s).steps) :
    (computeCode operator type left right s).Typed T R .word := by
  unfold computeCode at given ⊢
  dsimp only at given ⊢
  split
  · rename_i byte
    simp only [byte, if_true] at given
    obtain ⟨raw, rest⟩ := allFulfil_cons.mp given
    obtain ⟨lines, place⟩ := typed_cutCode (R := R) (raw s.register rfl) rest
    exact ⟨allFulfil_cons.mpr ⟨⟨hl, hr⟩, lines⟩, place⟩
  · rename_i other
    simp only [other, if_false] at given
    obtain ⟨raw, -⟩ := allFulfil_cons.mp given
    exact ⟨allFulfil_cons.mpr ⟨⟨hl, hr⟩, allFulfil_nil⟩, raw s.register rfl⟩

theorem typed_arithmeticCode (hl : T left = some .word) (hr : T right = some .word)
    (given : AllGiven T (arithmeticCode operator type left right s).steps) :
    (arithmeticCode operator type left right s).Typed T R .word := by
  unfold arithmeticCode at given ⊢
  split
  · rename_i division
    simp only [division, if_true] at given
    obtain ⟨guarded, rest⟩ := allFulfil_append.mp given
    have isZero : T s.register = some .bit := (allFulfil_cons.mp guarded).1 s.register rfl
    obtain ⟨lines, place⟩ := typed_computeCode (R := R) hl hr rest
    refine ⟨allFulfil_append.mpr ⟨?_, division ▸ lines⟩, division ▸ place⟩
    simp [guardCode, hr, isZero]
  · rename_i other
    simp only [other, if_false] at given
    exact typed_computeCode hl hr given

theorem argumentTyped_of_converts {source : Ty} {r : Register} (value : type.isValue = true)
    (h : source.convertibleTo type = true) (hr : T r = some source.register) :
    Instr.ArgumentTyped T (type.ir, .register r) :=
  ⟨type.register, Ty.register?_ir value, hr.trans (congrArg some (Ty.register_of_convertibleTo h))⟩

mutual

theorem Term.typed_code (sound : Γ.Sound) {type : Ty} :
    ∀ (t : Term), t.HasType Γ type → t.All (Place.TypedIn T frame) Q → ∀ {s : NameSupply},
      AllGiven T (t.code frame s).steps → (t.code frame s).Typed T R type.register
  | .number _, h, _, s, given => by
    simp at given
    have word : type.register = .word := by
      cases type with
      | int | byte => rfl
      | _ => exact h.elim
    exact ⟨by simp, word ▸ given⟩
  | .text _, h, _, s, given => by
    simp at given
    exact ⟨by simp, h ▸ given⟩
  | .read _, h, all, s, given => by
    have word : type.register = .word := Ty.register_of_isSpecial (sound.places _ _ h.2)
    exact word ▸ Place.typed_code all given
  | .call _ _ arguments, h, all, s, given => by
    have value : type.isValue = true := Term.HasType.isValue sound h
    obtain ⟨notVoid, -, rfl, parameters, found, types⟩ := h
    obtain ⟨before, call⟩ := allFulfil_append.mp given
    obtain ⟨lines, operands⟩ :=
      arguments.typed_code sound types (sound.parameters _ _ _ found) all.2 before
    have represented : type.ir ≠ .void := by
      cases type with
      | void => exact absurd rfl notVoid
      | invalid => cases value
      | _ => decide
    refine ⟨allFulfil_append.mpr ⟨lines, allFulfil_cons.mpr ⟨⟨represented, operands⟩,
      allFulfil_nil⟩⟩, ?_⟩
    exact ((allFulfil_cons.mp call).1 _ rfl).trans (Ty.register?_ir value)
  | .truth test, h, all, s, given =>
    h.1 ▸ typed_materialize given fun given => test.typed_code sound h.2 all given
  | .arithmetic _ _ left right, h, all, s, given => by
    obtain ⟨rfl, a, b, hl, hr, ha, hb, rfl⟩ := h
    obtain ⟨operands, rest⟩ := allFulfil_append.mp given
    obtain ⟨first, second⟩ := allFulfil_append.mp operands
    obtain ⟨linesLeft, placeLeft⟩ := left.typed_code sound hl all.1 first
    obtain ⟨linesRight, placeRight⟩ := right.typed_code sound hr all.2 second
    rw [Ty.register_of_isNumeric ha] at placeLeft
    rw [Ty.register_of_isNumeric hb] at placeRight
    obtain ⟨lines, place⟩ := typed_arithmeticCode (R := R) placeLeft placeRight rest
    rw [Ty.register_of_isNumeric (Ty.isNumeric_castUp ha hb)]
    exact ⟨allFulfil_append.mpr ⟨allFulfil_append.mpr ⟨linesLeft, linesRight⟩, lines⟩, place⟩
  | .cut operand, h, all, s, given => by
    obtain ⟨rfl, number⟩ := h
    obtain ⟨before, rest⟩ := allFulfil_append.mp given
    obtain ⟨lines, place⟩ := operand.typed_code sound number all before
    obtain ⟨linesCut, placeCut⟩ := typed_cutCode (R := R) place rest
    exact ⟨allFulfil_append.mpr ⟨lines, linesCut⟩, placeCut⟩
  | .same operand, h, all, s, given => by
    obtain ⟨-, source, hs, converts⟩ := h
    rw [← Ty.register_of_convertibleTo converts]
    exact operand.typed_code sound hs all given
  | .choice _ condition thenValue elseValue, h, all, s, given => by
    obtain ⟨rfl, -, value, hc, a, b, ha, hb, rfl⟩ := h
    obtain ⟨sameThen, sameElse⟩ := Ty.register_castUp value
    simp [Ty.register?_ir value] at given
    obtain ⟨test, first, second, join⟩ := given
    have linesTest := condition.typed_code sound hc all.1 test
    obtain ⟨linesThen, placeThen⟩ := thenValue.typed_code sound ha all.2.1 first
    obtain ⟨linesElse, placeElse⟩ := elseValue.typed_code sound hb all.2.2 second
    refine ⟨?_, join⟩
    simp [Instr.ArgumentTyped, Ty.register?_ir value, linesTest, linesThen, linesElse, placeThen,
      placeElse, sameThen, sameElse]

theorem Test.typed_code (sound : Γ.Sound) : ∀ (t : Test), t.WellTyped Γ →
    t.All (Place.TypedIn T frame) Q →
    ∀ {s : NameSupply}, AllGiven T (t.code frame s).steps → AllTyped T R (t.code frame s).steps
  | .constant _, _, _, s, _ => by simp [Test.code]
  | .read _, _, all, s, given => typed_nonzero given fun given => Place.typed_code all given
  | .call _ arguments, h, all, s, given => by
    obtain ⟨parameters, found, types⟩ := h
    refine typed_nonzero given fun given => ?_
    obtain ⟨before, call⟩ := allFulfil_append.mp given
    obtain ⟨lines, operands⟩ :=
      arguments.typed_code sound types (sound.parameters _ _ _ found) all.2 before
    refine ⟨allFulfil_append.mpr ⟨lines, allFulfil_cons.mpr ⟨⟨?_, operands⟩, allFulfil_nil⟩⟩, ?_⟩
    · decide
    · exact (allFulfil_cons.mp call).1 _ rfl
  | .not operand, h, all, s, given => by
    simp only [Test.code, allFulfil_map_bind] at given ⊢
    exact operand.typed_code sound h all given
  | .and left right, h, all, s, given | .or left right, h, all, s, given => by
    simp only [Test.code, allFulfil_append, allFulfil_map_bind, allFulfil_cons] at given ⊢
    exact ⟨left.typed_code sound h.1 all.1 given.1, trivial,
      right.typed_code sound h.2 all.2 given.2.2⟩
  | .compare _ left right, h, all, s, given => by
    obtain ⟨a, b, hl, hr, ha, hb⟩ := h
    simp [Test.code] at given
    obtain ⟨first, second, condition⟩ := given
    obtain ⟨linesLeft, placeLeft⟩ := left.typed_code sound hl all.1 first
    obtain ⟨linesRight, placeRight⟩ := right.typed_code sound hr all.2 second
    rw [Ty.register_of_isNumeric ha] at placeLeft
    rw [Ty.register_of_isNumeric hb] at placeRight
    simp [Test.code, linesLeft, linesRight, placeLeft, placeRight, condition]
  | .same operand, h, all, s, given => operand.typed_code sound h all given
  | .choice condition thenTest elseTest, h, all, s, given => by
    simp only [Test.code, allFulfil_append, allFulfil_map_bind, allFulfil_cons] at given ⊢
    obtain ⟨⟨test, -, first⟩, -, second⟩ := given
    exact ⟨⟨condition.typed_code sound h.1 all.1 test, trivial,
      thenTest.typed_code sound h.2.1 all.2.1 first⟩, trivial,
      elseTest.typed_code sound h.2.2 all.2.2 second⟩

theorem Arguments.typed_code (sound : Γ.Sound) {types : List Ty} :
    ∀ (a : Arguments), a.HaveTypes Γ types → (∀ type ∈ types, type.isValue = true) →
      a.All (Place.TypedIn T frame) Q → ∀ {s : NameSupply}, AllGiven T (a.code frame s).steps →
      AllTyped T R (a.code frame s).steps ∧ ∀ o ∈ (a.code frame s).operands, Instr.ArgumentTyped T o
  | .nil, _, _, _, s, _ => ⟨allFulfil_nil, forall_mem_nil _⟩
  | .cons _ value rest, h, values, all, s, given => by
    obtain ⟨type, types, rfl, rfl, ⟨source, hv, converts⟩, hrest⟩ := h
    obtain ⟨first, second⟩ := allFulfil_append.mp given
    obtain ⟨lines, place⟩ := value.typed_code sound hv all.1 first
    obtain ⟨linesRest, operands⟩ := rest.typed_code sound hrest
      (fun t mem => values t (mem_cons_of_mem _ mem)) all.2 second
    refine ⟨allFulfil_append.mpr ⟨lines, linesRest⟩, forall_mem_cons.mpr ⟨?_, operands⟩⟩
    exact argumentTyped_of_converts (values type mem_cons_self) converts place

end

/-! ## Code of actions -/

/-- The registers that all of a function may rely on have their types. -/
structure Frame.TypedIn (frame : Frame) (T : RegisterTypes) : Prop where
  array : 0 < frame.size → T .frame = some (.array frame.size)
  parameters : ∀ index < frame.slots.length, (Place.parameter index).TypedIn T frame
  result : frame.returnType ≠ .invalid

variable {limit : Nat}

theorem Place.Reached.typedIn (h : place.Reached frame live) (given : frame.TypedIn T)
    (reached : ∀ p ∈ live, T (.temp p.1) = some .cell) : place.TypedIn T frame := by
  cases place with
  | «variable» pointer =>
    obtain ⟨offset, mem⟩ := h
    exact reached _ mem
  | parameter index => exact given.parameters index h

theorem Place.Stored.pointer (h : place.Stored frame) (typed : place.TypedIn T frame) :
    T (place.pointer frame) = some .cell := by
  cases place with
  | «variable» pointer => exact typed
  | parameter index =>
    obtain ⟨slot, found⟩ := h
    unfold Place.TypedIn at typed
    unfold Place.pointer
    simp only [found] at typed ⊢
    exact typed

theorem Live.Free.wellTyped {pointer offset : Nat} (h : live.Free frame limit pointer offset)
    (given : frame.TypedIn T) (r : Register) (R : IrType) :
    (Instr.slotAddress r frame.size offset).WellTyped T R :=
  ⟨given.array (Int.lt_of_le_of_lt (Int.natCast_nonneg offset) h.inFrame),
    Int.natCast_nonneg offset, h.inFrame⟩

theorem Action.typed_declared (a : Action) (given : AllGiven T (a.code frame s).steps) :
    ∀ p ∈ a.declared, T (.temp p.1) = some .cell := by
  cases a with
  | declare offset pointer initial =>
    refine forall_mem_singleton.mpr ?_
    cases initial with
    | none => exact (allFulfil_cons.mp given).1 _ rfl
    | some value =>
      simp only [Action.code, allFulfil_cons, allFulfil_append] at given
      exact given.1.1 _ rfl
  | _ => exact forall_mem_nil _

mutual

theorem Action.typed_code (sound : Γ.Sound) (frameTyped : frame.TypedIn T) {inLoop : Bool}
    {live : Live} :
    ∀ (a : Action), a.WellTyped Γ frame.returnType → a.Scoped frame limit Q inLoop live →
      (∀ p ∈ live, T (.temp p.1) = some .cell) →
        ∀ {s : NameSupply}, AllGiven T (a.code frame s).steps →
      AllTyped T frame.returnType.ir (a.code frame s).steps
  | .declare offset pointer none, _, h, _, s, given => by
    have address := (allFulfil_cons.mp given).1 (.temp pointer) rfl
    simp only [Action.code, fallThrough, allFulfil_cons]
    exact ⟨Live.Free.wellTyped h frameTyped (.temp pointer) frame.returnType.ir, ⟨rfl, address⟩,
      trivial, allFulfil_nil⟩
  | .declare offset pointer (some value), typed, h, reached, s, given => by
    obtain ⟨type, found, source, hv, converts⟩ := typed
    simp only [Action.code, fallThrough, allFulfil_cons, allFulfil_append,
      allFulfil_map_lift] at given ⊢
    obtain ⟨⟨address, before⟩, -⟩ := given
    have cell := address (.temp pointer) rfl
    obtain ⟨lines, place⟩ := value.typed_code (R := frame.returnType.ir) sound hv
      (h.2.imp (fun _ reach => reach.typedIn frameTyped reached) fun _ _ _ => id) before
    rw [Ty.register_of_convertibleTo converts,
      Ty.register_of_isSpecial (sound.places (.variable pointer) _ found)] at place
    exact ⟨⟨h.1.wellTyped frameTyped (.temp pointer) frame.returnType.ir, lines⟩, ⟨place, cell⟩,
      trivial, allFulfil_nil⟩
  | .assign target value, typed, h, reached, s, given => by
    obtain ⟨type, found, source, hv, converts⟩ := typed
    simp only [Action.code, fallThrough, allFulfil_cons, allFulfil_append,
      allFulfil_map_lift] at given ⊢
    obtain ⟨lines, place⟩ := value.typed_code (R := frame.returnType.ir) sound hv
      (h.2.2.imp (fun _ reach => reach.typedIn frameTyped reached) fun _ _ _ => id) given.1
    rw [Ty.register_of_convertibleTo converts,
      Ty.register_of_isSpecial (sound.places _ _ found)] at place
    have cell := h.2.1.pointer (h.1.typedIn frameTyped reached)
    exact ⟨lines, ⟨place, cell⟩, trivial, allFulfil_nil⟩
  | .drop value, typed, h, reached, s, given => by
    obtain ⟨type, hv⟩ := typed
    simp only [Action.code, fallThrough, allFulfil_cons, allFulfil_append,
      allFulfil_map_lift] at given ⊢
    have all := Term.All.imp (t := value) (fun _ reach => reach.typedIn frameTyped reached)
      (fun _ _ _ => id) h
    exact ⟨(value.typed_code sound hv all given.1).lines, trivial, allFulfil_nil⟩
  | .run name arguments, typed, h, reached, s, given => by
    obtain ⟨parameters, found, types⟩ := typed
    simp only [Action.code, fallThrough, allFulfil_cons, allFulfil_append,
      allFulfil_map_lift] at given ⊢
    have all := h.2.imp (fun _ reach => reach.typedIn frameTyped reached) fun _ _ _ => id
    obtain ⟨lines, operands⟩ :=
      arguments.typed_code sound types (sound.parameters _ _ _ found) all given.1
    exact ⟨lines, operands, trivial, allFulfil_nil⟩
  | .check condition, typed, h, reached, s, given => by
    have all := Test.All.imp (t := condition) (fun _ reach => reach.typedIn frameTyped reached)
      (fun _ _ _ => id) h
    simp only [Action.code, fallThrough, allFulfil_cons, allFulfil_append,
      allFulfil_map_bind] at given ⊢
    exact ⟨condition.typed_code sound typed all given.1, trivial, trivial, allFulfil_nil⟩
  | .when condition body, typed, h, reached, s, given => by
    have all := h.1.imp (fun _ reach => reach.typedIn frameTyped reached) fun _ _ _ => id
    simp only [Action.code, allFulfil_cons, allFulfil_append, allFulfil_map_bind] at given ⊢
    exact ⟨condition.typed_code sound typed.1 all given.1, trivial,
      body.typed_code sound frameTyped typed.2 h.2 reached given.2.2⟩
  | .either condition thenBranch elseBranch, typed, h, reached, s, given => by
    have all := h.1.imp (fun _ reach => reach.typedIn frameTyped reached) fun _ _ _ => id
    simp only [Action.code, allFulfil_cons, allFulfil_append, allFulfil_map_bind] at given ⊢
    obtain ⟨⟨test, -, first⟩, -, second⟩ := given
    exact ⟨⟨condition.typed_code sound typed.1 all test, trivial,
      thenBranch.typed_code sound frameTyped typed.2.1 h.2.1 reached first⟩, trivial,
      elseBranch.typed_code sound frameTyped typed.2.2 h.2.2 reached second⟩
  | .loop condition body, typed, h, reached, s, given => by
    have all := h.1.imp (fun _ reach => reach.typedIn frameTyped reached) fun _ _ _ => id
    simp only [Action.code, allFulfil_cons, allFulfil_append, allFulfil_map_bind] at given ⊢
    obtain ⟨⟨-, -, test⟩, -, rest⟩ := given
    exact ⟨⟨trivial, trivial, condition.typed_code sound typed.1 all test⟩, trivial,
      body.typed_code sound frameTyped typed.2 h.2 reached rest⟩
  | .break, _, _, _, s, _ | .continue, _, _, _, s, _ => by simp [Action.code]
  | .return none, _, h, _, s, _ => by
    simp only [Action.code, allFulfil_cons]
    exact ⟨congrArg Ty.ir h, allFulfil_nil⟩
  | .return (some value), typed, h, reached, s, given => by
    obtain ⟨source, hv, converts⟩ := typed
    simp only [Action.code, allFulfil_cons, allFulfil_append, allFulfil_map_lift] at given ⊢
    have all := h.2.imp (fun _ reach => reach.typedIn frameTyped reached) fun _ _ _ => id
    obtain ⟨lines, place⟩ := value.typed_code (R := frame.returnType.ir) sound hv all given.1
    have returned : frame.returnType.isValue = true := by
      have notVoid := h.1
      have valid := frameTyped.result
      cases eq : frame.returnType with
      | void => exact absurd eq notVoid
      | invalid => exact absurd eq valid
      | _ => rfl
    exact ⟨lines, ⟨rfl, argumentTyped_of_converts returned converts place⟩, allFulfil_nil⟩
  | .block .nil, _, _, _, s, _ => by simp [Action.code, fallThrough]
  | .block (.cons first rest), typed, h, reached, s, given =>
    Actions.typed_code sound frameTyped (.cons first rest) typed h reached given

theorem Actions.typed_code (sound : Γ.Sound) (frameTyped : frame.TypedIn T) {inLoop : Bool}
    {live : Live} :
    ∀ (as : Actions), as.WellTyped Γ frame.returnType → as.Scoped frame limit Q inLoop live →
      (∀ p ∈ live, T (.temp p.1) = some .cell) →
        ∀ {s : NameSupply}, AllGiven T (as.code frame s).steps →
      AllTyped T frame.returnType.ir (as.code frame s).steps
  | .nil, _, _, _, s, _ => by simp [Actions.code]
  | .cons first .nil, typed, h, reached, s, given =>
    first.typed_code sound frameTyped typed.1 h.1 reached given
  | .cons first (.cons second rest), typed, h, reached, s, given => by
    simp only [Actions.code, allFulfil_cons, allFulfil_append, allFulfil_map_bind] at given ⊢
    have declared : ∀ p ∈ first.declared, T (.temp p.1) = some .cell :=
      first.typed_declared given.1
    exact ⟨first.typed_code sound frameTyped typed.1 h.1 reached given.1, trivial,
      Actions.typed_code sound frameTyped (.cons second rest) typed.2 h.2
        (forall_mem_append.mpr ⟨declared, reached⟩) given.2.2⟩

end

end Code

/-! ## Functions -/

namespace Routine

/-- The function keeps the rules. Its parameters can be stored, and it returns a value that can be
stored, if anything. -/
structure WellTyped (f : Routine) (Γ : Types) : Prop where
  sound : Γ.Sound
  parameters : Γ.parameters = f.parameters
  result : f.returnType ≠ .string ∧ f.returnType ≠ .invalid
  body : f.body.WellTyped Γ f.returnType

variable {f : Routine} {Γ : Types} {T : RegisterTypes} {limit : Nat} {Q : Signatures} {R : IrType}

theorem ir_parameters (h : f.WellTyped Γ) : ∀ type ∈ f.parameters, type.ir = .i32 := by
  intro type mem
  rw [← h.parameters] at mem
  obtain ⟨index, found⟩ := mem_iff_getElem?.mp mem
  have storable := h.sound.places (.parameter index) type found
  cases type with
  | bool | byte | int => rfl
  | _ => cases storable

/-- The own places of parameters have addresses, and their first values are numbers. -/
theorem typed_spillLines {slots : List (Option Nat)}
    (arguments : ∀ i < slots.length, T (.argument i) = some .word)
    (given : ∀ i ∈ spillLines 0 slots, i.Given T) :
    (∀ i ∈ spillLines 0 slots, i.WellTyped T R) ∧ ∀ slot, some slot ∈ slots →
      T (.temp slot) = some .cell := by
  have cells {k slot : Nat} (found : slots[k]? = some (some slot)) : T (.temp slot) = some .cell :=
    given _ (mem_spillLines.mpr ⟨k, slot, found, .inl rfl⟩) (.temp slot) rfl
  refine ⟨fun i mem => ?_, fun slot mem => ?_⟩
  · obtain ⟨k, slot, found, rfl | rfl⟩ := mem_spillLines.mp mem
    · trivial
    · rw [Nat.zero_add]
      exact ⟨arguments k (List.getElem?_eq_some_iff.mp found).1, cells found⟩
  · obtain ⟨k, found⟩ := mem_iff_getElem?.mp mem
    exact cells found

theorem typed_endLines (result : f.returnType ≠ .string ∧ f.returnType ≠ .invalid) :
    ∀ i ∈ f.endLines, i.WellTyped T f.returnType.ir := by
  have returns :
      (Instr.ret (if f.returnType = .void then none else some (f.returnType.ir,
      .number 0))).WellTyped T f.returnType.ir := by
    split
    · rename_i void
      exact congrArg Ty.ir void
    · rename_i other
      have word : f.returnType.ir.register? = some .word := by
        revert result other
        cases f.returnType <;> decide
      exact ⟨rfl, .word, word, rfl⟩
  unfold endLines
  split
  · have exits : (Instr.call none "exit" [(.i32, .number 0)]).WellTyped T f.returnType.ir :=
      forall_mem_singleton.mpr ⟨.word, rfl, rfl⟩
    exact forall_mem_cons.mpr ⟨exits, forall_mem_singleton.mpr returns⟩
  · exact forall_mem_singleton.mpr returns

/-- Every line of a function that keeps the rules reads registers at their types. -/
theorem wellTyped_code (typed : f.WellTyped Γ) (h : f.Scoped limit Q) {s : NameSupply}
    (arguments : ∀ i < f.parameters.length, T (.argument i) = some .word)
    (given : AllGiven T (f.code s).steps) :
    ∀ i ∈ (f.code s).steps.map (Step.instr Step.noExits), i.WellTyped T f.returnType.ir := by
  obtain ⟨inside, -⟩ := allFulfil_append.mp given
  obtain ⟨before, body⟩ := allFulfil_append.mp inside
  rw [allFulfil_map_line, forall_mem_append] at before
  rw [allFulfil_map_bind] at body
  obtain ⟨spilled, cells⟩ :=
    typed_spillLines (R := f.returnType.ir) (fun i hi => arguments i (h.slots ▸ hi)) before.2
  have frameTyped : f.frame.TypedIn T := by
    refine ⟨fun positive => ?_, fun index bound => ?_, typed.result.2⟩
    · have line : .allocaFrame f.frameSize ∈ f.frameLines := by
        unfold frameLines
        rw [if_pos (Int.ofNat_lt.mp positive)]
        exact mem_singleton_self _
      exact before.1 _ line .frame rfl
    · have length : f.frame.slots.length = f.slots.length := length_map _
      have found : f.frame.slots[index]? = (f.slots[index]?).map (Option.map .temp) := getElem?_map
      unfold Place.TypedIn
      dsimp only
      rw [found]
      cases slot : f.slots[index]? with
      | none => exact arguments index (by rw [← h.slots]; omega)
      | some own =>
        cases own with
        | none => exact arguments index (by rw [← h.slots]; omega)
        | some r => exact cells r (mem_of_getElem? slot)
  have lines : AllTyped T f.returnType.ir (f.code s).steps := by
    refine allFulfil_append.mpr ⟨allFulfil_append.mpr ⟨?_, ?_⟩, ?_⟩
    · refine allFulfil_map_line.mpr (forall_mem_append.mpr ⟨?_, spilled⟩)
      unfold frameLines
      split
      · exact forall_mem_singleton.mpr trivial
      · exact forall_mem_nil _
    · exact allFulfil_map_bind.mpr
        (Action.typed_code typed.sound frameTyped (.block f.body) typed.body h.body
          (forall_mem_nil _) body)
    · exact allFulfil_map_line.mpr (forall_mem_cons.mpr ⟨trivial, typed_endLines typed.result⟩)
  exact lines.instr (fun _ => trivial) fun _ _ _ => id

end Routine

end Backpatch
