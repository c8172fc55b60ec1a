import Backpatch.Proofs.Core.Scope

/-!
# Lines of core terms

What holds of all lines of the code of a term: it is enough that it holds of the kinds of lines that
make values, and of calls of the functions that the term may call (`Term.lines_code`). The code of a
function has a few more kinds of lines (`Routine.lines_code`).
-/

namespace Backpatch

open List

/-! ## Lines of open code -/

namespace Step

variable {V W : Type} {P : Instr → Prop} {B : Register → Prop}

/-- Lines fulfil `P`, and registers that are branched on `B`. -/
def Fulfils (P : Instr → Prop) (B : Register → Prop) : Step W → Prop
  | line i => P i
  | jump _ => True
  | branch c _ _ => B c

def AllFulfil (P : Instr → Prop) (B : Register → Prop) (steps : List (Step W)) : Prop :=
  ∀ s ∈ steps, s.Fulfils P B

@[simp] theorem allFulfil_nil : AllFulfil P B ([] : List (Step W)) := forall_mem_nil _

@[simp] theorem allFulfil_cons {s : Step W} {steps : List (Step W)} :
    AllFulfil P B (s :: steps) ↔ s.Fulfils P B ∧ AllFulfil P B steps := forall_mem_cons

@[simp] theorem allFulfil_append {xs ys : List (Step W)} :
    AllFulfil P B (xs ++ ys) ↔ AllFulfil P B xs ∧ AllFulfil P B ys := forall_mem_append

theorem fulfils_bind {σ : V → Exit W} {s : Step V} : (s.bind σ).Fulfils P B ↔ s.Fulfils P B := by
  cases s <;> exact .rfl

@[simp] theorem allFulfil_map_bind {σ : V → Exit W} {steps : List (Step V)} :
    AllFulfil P B (steps.map (bind σ)) ↔ AllFulfil P B steps := by
  unfold AllFulfil
  rw [forall_mem_map]
  exact forall₂_congr fun _ _ => fulfils_bind

@[simp] theorem allFulfil_map_lift {steps : List (Step Empty)} :
    AllFulfil P B (steps.map (lift : Step Empty → Step W)) ↔ AllFulfil P B steps :=
      allFulfil_map_bind

@[simp] theorem allFulfil_map_line {lines : List Instr} :
    AllFulfil P B (lines.map (line : Instr → Step W)) ↔ ∀ i ∈ lines, P i :=
  forall_mem_map

@[simp] theorem fulfils_line {i : Instr} : (line i : Step W).Fulfils P B ↔ P i := .rfl

@[simp] theorem fulfils_jump {e : Exit W} : (jump e).Fulfils P B := trivial

@[simp] theorem fulfils_branch {c : Register} {t f : Exit W} : (branch c t f).Fulfils P B ↔ B c :=
  .rfl

variable {steps : List (Step W)} {ρ : W → Target}

theorem allFulfil_of_instr (h : ∀ i ∈ steps.map (Step.instr ρ), P i) :
    AllFulfil P (fun _ => True) steps := by
  intro s mem
  have here := h _ (mem_map_of_mem mem)
  cases s with
  | line i => exact here
  | jump e | branch c t f => trivial

theorem AllFulfil.instr (h : AllFulfil P B steps) (jumps : ∀ target, P (.jump target))
    (branches : ∀ c t f, B c → P (.branch c t f)) : ∀ i ∈ steps.map (Step.instr ρ), P i := by
  refine forall_mem_map.mpr fun s mem => ?_
  have here := h s mem
  cases s with
  | line i => exact here
  | jump e => exact jumps _
  | branch c t f => exact branches _ _ _ here

end Step

open Step

/-! ## Code of terms -/

/-- The line gives a value to a register of the code, or is a label. -/
abbrev Instr.makesValue : Instr → Bool
  | .load .. | .compute .. | .compare .. | .phi .. | .stringAddress .. | .label _ => true
  | _ => false

/-- The line reserves, finds or changes a place in memory, or returns. -/
abbrev Instr.hasEffect : Instr → Bool
  | .allocaFrame _ | .allocaSlot _ | .slotAddress .. | .store .. | .ret _ => true
  | _ => false

section Terms

variable {P : Instr → Prop} {R : Place → Prop} {Q : Signatures} {frame : Frame} {s : NameSupply}

/-- The lines that the code of a term can have: those that make values, the call of the handler, and
calls of the functions of the term. -/
structure Instr.Covers (P : Instr → Prop) (Q : Signatures) : Prop where
  values : ∀ i, i.makesValue = true → P i
  handler : P (.call none zeroDivisionHandler [])
  calls : ∀ name type operands r, Q name type (operands.map Prod.fst) →
    P (.call (some (r, type)) name operands)

/-- The lines that the code of a function can have. -/
structure Instr.CoversAll (P : Instr → Prop) (Q : Signatures) : Prop extends Covers P Q where
  effects : ∀ i, i.hasEffect = true → P i
  runs : ∀ name operands, Q name .void (operands.map Prod.fst) → P (.call none name operands)
  exit : P (.call none "exit" [(.i32, .number 0)])

theorem Arguments.types_code (a : Arguments) (s : NameSupply) :
    (a.code frame s).operands.map Prod.fst = a.types := by
  cases a with
  | nil => rfl
  | cons type value rest => exact congrArg (type :: ·) (rest.types_code _)

namespace Instr.Covers

variable (h : Instr.Covers P Q)

include h

/-- A place is read by one line, if it has an address. -/
theorem place (place : Place) (s : NameSupply) :
    AllFulfil P (fun _ => True) (place.code frame s).steps := by
  cases place with
  | «variable» pointer => simp [Place.code, loadCode, h.values]
  | parameter index =>
    unfold Place.code
    dsimp only
    split <;> simp [loadCode, h.values]

theorem nonzero {c : TermCode} (lines : AllFulfil P (fun _ => True) c.steps) :
    AllFulfil P (fun _ => True) c.nonzero.steps := by
  simp [TermCode.nonzero, branchOn, lines, h.values]

theorem arithmeticCode (operator : Arithmetic) (type : Ty) (left right : Register)
    (s : NameSupply) :
    AllFulfil P (fun _ => True) (arithmeticCode operator type left right s).steps := by
  have compute (s : NameSupply) : AllFulfil P (fun _ => True)
      (computeCode operator type left right s).steps := by
    unfold computeCode
    dsimp only
    split <;> simp [cutCode, h.values]
  unfold Backpatch.arithmeticCode
  split
  · simp [guardCode, h.values, h.handler, compute]
  · exact compute s

theorem call {name : String} {type : IrType} {arguments : Arguments}
    (known : Q name type arguments.types)
    (lines : AllFulfil P (fun _ => True) (arguments.code frame s).steps) (r : Register) :
    AllFulfil P (fun _ => True) ((arguments.code frame s).steps ++
      [.line (.call (some (r, type)) name (arguments.code frame s).operands)]) :=
  allFulfil_append.mpr ⟨lines, allFulfil_cons.mpr
    ⟨h.calls _ _ _ _ (arguments.types_code s ▸ known), allFulfil_nil⟩⟩

end Instr.Covers

attribute [local simp] Term.code Test.code Arguments.code

mutual

theorem Term.lines_code (h : Instr.Covers P Q) :
    ∀ (t : Term), t.All R Q → ∀ (s : NameSupply), AllFulfil P (fun _ => True) (t.code frame s).steps
  | .number _, _, s | .text _, _, s => by simp [h.values]
  | .read place, _, s => h.place place s
  | .call _ _ arguments, all, s => h.call all.1 (arguments.lines_code h all.2 s) _
  | .truth test, all, s => by simp [Code.materialize, h.values, test.lines_code h all]
  | .arithmetic _ _ left right, all, s => by
    simp [left.lines_code h all.1, right.lines_code h all.2, h.arithmeticCode]
  | .cut operand, all, s => by simp [cutCode, h.values, operand.lines_code h all]
  | .same operand, all, s => operand.lines_code h all s
  | .choice _ condition thenValue elseValue, all, s => by
    simp [h.values, condition.lines_code h all.1, thenValue.lines_code h all.2.1,
      elseValue.lines_code h all.2.2]

theorem Test.lines_code (h : Instr.Covers P Q) :
    ∀ (t : Test), t.All R Q → ∀ (s : NameSupply), AllFulfil P (fun _ => True) (t.code frame s).steps
  | .constant _, _, s => by simp
  | .read place, _, s => h.nonzero (h.place place s)
  | .call _ arguments, all, s => h.nonzero (h.call all.1 (arguments.lines_code h all.2 s) _)
  | .not operand, all, s => by simp [operand.lines_code h all]
  | .and left right, all, s | .or left right, all, s => by
    simp [h.values, left.lines_code h all.1, right.lines_code h all.2]
  | .compare _ left right, all, s => by
    simp [branchOn, h.values, left.lines_code h all.1, right.lines_code h all.2]
  | .same operand, all, s => operand.lines_code h all s
  | .choice condition thenTest elseTest, all, s => by
    simp [h.values, condition.lines_code h all.1, thenTest.lines_code h all.2.1,
      elseTest.lines_code h all.2.2]

theorem Arguments.lines_code (h : Instr.Covers P Q) :
    ∀ (a : Arguments), a.All R Q → ∀ (s : NameSupply),
    AllFulfil P (fun _ => True) (a.code frame s).steps
  | .nil, _, s => by simp
  | .cons _ value rest, all, s => by simp [value.lines_code h all.1, rest.lines_code h all.2]

end

end Terms

/-! ## Code of functions -/

section Functions

variable {P : Instr → Prop} {Q : Signatures} {frame : Frame} {limit : Nat}

attribute [local simp] Action.code Actions.code fallThrough

mutual

theorem Action.lines_code (h : Instr.CoversAll P Q) {inLoop : Bool} {live : Live} :
    ∀ (a : Action), a.Scoped frame limit Q inLoop live →
      ∀ (s : NameSupply), AllFulfil P (fun _ => True) (a.code frame s).steps
  | .declare _ _ none, _, s => by simp [h.effects]
  | .declare _ _ (some value), all, s => by simp [h.effects, value.lines_code h.toCovers all.2]
  | .assign _ value, all, s => by simp [h.effects, value.lines_code h.toCovers all.2.2]
  | .drop value, all, s => by simp [value.lines_code h.toCovers all]
  | .run _ arguments, all, s => by
    simp [arguments.lines_code h.toCovers all.2, h.runs, arguments.types_code, all.1]
  | .check condition, all, s => by simp [h.values, condition.lines_code h.toCovers all]
  | .when condition body, all, s | .loop condition body, all, s => by
    simp [h.values, condition.lines_code h.toCovers all.1, body.lines_code h all.2]
  | .either condition thenBranch elseBranch, all, s => by
    simp [h.values, condition.lines_code h.toCovers all.1, thenBranch.lines_code h all.2.1,
      elseBranch.lines_code h all.2.2]
  | .break, _, s | .continue, _, s => by simp
  | .return none, _, s => by simp [h.effects]
  | .return (some value), all, s => by simp [h.effects, value.lines_code h.toCovers all.2]
  | .block .nil, _, s => by simp
  | .block (.cons first rest), all, s => Actions.lines_code h (.cons first rest) all s

theorem Actions.lines_code (h : Instr.CoversAll P Q) {inLoop : Bool} {live : Live} :
    ∀ (as : Actions), as.Scoped frame limit Q inLoop live →
      ∀ (s : NameSupply), AllFulfil P (fun _ => True) (as.code frame s).steps
  | .nil, _, s => by simp
  | .cons first .nil, all, s => first.lines_code h all.1 s
  | .cons first (.cons second rest), all, s => by
    simp [h.values, first.lines_code h all.1, Actions.lines_code h (.cons second rest) all.2]

end

/-- The lines that store parameters are two for each parameter with a place of its own. -/
theorem Routine.mem_spillLines {index : Nat} {slots : List (Option Nat)} {i : Instr} :
    i ∈ spillLines index slots ↔ ∃ k slot, slots[k]? = some (some slot) ∧
      (i = .allocaSlot (.temp slot) ∨ i = .store (.register (.argument (index + k)))
        (.temp slot)) := by
  induction slots generalizing index with
  | nil => simp [spillLines]
  | cons first slots ih =>
    -- The first place, or one behind it.
    have split (F : Nat → Nat → Prop) : (∃ k slot, (first :: slots)[k]? = some (some slot) ∧
        F k slot) ↔
        (∃ slot, first = some slot ∧ F 0 slot) ∨ ∃ k slot, slots[k]? = some (some slot) ∧
          F (k + 1) slot := by
      constructor
      · rintro ⟨_ | k, slot, found, holds⟩
        · exact .inl ⟨slot, Option.some.inj found, holds⟩
        · exact .inr ⟨k, slot, found, holds⟩
      · rintro (⟨slot, rfl, holds⟩ | ⟨k, slot, found, holds⟩)
        · exact ⟨0, slot, rfl, holds⟩
        · exact ⟨k + 1, slot, found, holds⟩
    rw [split]
    have later (k : Nat) : index + 1 + k = index + (k + 1) := by omega
    cases first with
    | none => simp [spillLines, ih, later]
    | some slot => simp [spillLines, ih, later, or_assoc]

theorem Routine.lines_code (h : Instr.CoversAll P Q) {f : Routine} (inside : f.Scoped limit Q)
    (s : NameSupply) : AllFulfil P (fun _ => True) (f.code s).steps := by
  unfold Routine.code
  simp only [allFulfil_append, allFulfil_map_line, allFulfil_map_bind, forall_mem_append,
    forall_mem_cons]
  refine ⟨⟨⟨?_, fun i mem => ?_⟩, Action.lines_code h (.block f.body) inside.body s⟩,
    h.values _ rfl, ?_⟩
  · unfold Routine.frameLines
    split <;> simp [h.effects]
  · obtain ⟨_, _, -, rfl | rfl⟩ := mem_spillLines.mp mem <;> exact h.effects _ rfl
  · unfold Routine.endLines
    split <;> simp [h.effects, h.exit]

end Functions

end Backpatch
