import Backpatch.Proofs.Core.Types

/-!
# Registers of expressions

Every expression that has a value leaves it in a register, its place. The places of all expressions
in the code of a function are listed together with the terms (`Routine.places`), and each of them is
filled by a line of the shape that the term calls for (`Term.Origin`).
-/

namespace Backpatch

open List

section Places

variable (frame : Frame)

mutual

/-- The terms inside a term, the term itself among them, with the registers where their values are
left. -/
def Term.places : Term → NameSupply → List (Term × Register)
  | .number value, s => [(.number value, (Term.code frame (.number value) s).place)]
  | .text text, s => [(.text text, (Term.code frame (.text text) s).place)]
  | .read place, s => [(.read place, (Term.code frame (.read place) s).place)]
  | .call name result arguments, s =>
    (.call name result arguments, (Term.code frame (.call name result arguments) s).place)
      :: arguments.places s
  | .truth test, s => (.truth test, (Term.code frame (.truth test) s).place) :: test.places s
  | .arithmetic operator type left right, s =>
    (.arithmetic operator type left right,
      (Term.code frame (.arithmetic operator type left right) s).place) ::
      left.places s ++ right.places (left.code frame s).names
  | .cut operand, s => (.cut operand, (Term.code frame (.cut operand) s).place) :: operand.places s
  | .same operand, s =>
    (.same operand, (Term.code frame (.same operand) s).place) :: operand.places s
  | .choice type condition thenValue elseValue, s =>
    let names := (condition.code frame s).names.nextLabel
    (.choice type condition thenValue elseValue,
        (Term.code frame (.choice type condition thenValue elseValue) s).place) ::
      condition.places s ++ thenValue.places names ++
        elseValue.places (thenValue.code frame names).names.nextLabel.nextLabel

def Test.places : Test → NameSupply → List (Term × Register)
  | .constant _, _ | .read _, _ => []
  | .call _ arguments, s => arguments.places s
  | .not operand, s | .same operand, s => operand.places s
  | .and left right, s | .or left right, s =>
    left.places s ++ right.places (left.code frame s).names.nextLabel
  | .compare _ left right, s => left.places s ++ right.places (left.code frame s).names
  | .choice condition thenTest elseTest, s =>
    let names := (condition.code frame s).names.nextLabel
    condition.places s ++ thenTest.places names ++
      elseTest.places (thenTest.code frame names).names.nextLabel

def Arguments.places : Arguments → NameSupply → List (Term × Register)
  | .nil, _ => []
  | .cons _ value rest, s => value.places s ++ rest.places (value.code frame s).names

end

mutual

def Action.places : Action → NameSupply → List (Term × Register)
  | .declare _ _ none, _ | .break, _ | .continue, _ | .return none, _ => []
  | .declare _ _ (some value), s | .assign _ value, s | .drop value, s | .return (some value), s =>
    value.places frame s
  | .run _ arguments, s => arguments.places frame s
  | .check condition, s => condition.places frame s
  | .when condition body, s =>
    condition.places frame s ++ body.places (condition.code frame s).names.nextLabel
  | .either condition thenBranch elseBranch, s =>
    let names := (condition.code frame s).names.nextLabel
    condition.places frame s ++ thenBranch.places names ++
      elseBranch.places (thenBranch.code frame names).names.nextLabel
  | .loop condition body, s =>
    condition.places frame s.nextLabel ++ body.places
      (condition.code frame s.nextLabel).names.nextLabel
  | .block body, s => body.places s

def Actions.places : Actions → NameSupply → List (Term × Register)
  | .nil, _ => []
  | .cons first .nil, s => first.places s
  | .cons first (.cons second rest), s =>
    first.places s ++ Actions.places (.cons second rest) (first.code frame s).names.nextLabel

end

end Places

/-- The places of the expressions in a function. -/
def Routine.places (f : Routine) (s : NameSupply) : List (Term × Register) :=
  f.body.places f.frame s

/-! ## Where values come from -/

/-- The register is filled by a line of the shape that the term calls for. Of a sum of numbers
nothing is said, nor of a text. -/
def Term.Origin (frame : Frame) (places : List (Term × Register)) (lines : List Instr)
    (r : Register) : Term → Prop
  | .number value => .compute r .add (.number 0) (.number value) ∈ lines
  | .text _ => True
  | .read place =>
    place.Stored frame ∧ .load r (place.pointer frame) ∈ lines ∨ ∃ index, place = .parameter index ∧
      r = .argument index
  | .call name _ _ => ∃ result arguments, .call (some (r, result)) name arguments ∈ lines
  | .truth _ => ∃ onTrue onFalse, .phi r .i32 (.number 1) onTrue (.number 0) onFalse ∈ lines
  | .arithmetic _ type _ _ =>
    type = .byte → ∃ operand, .compute r .and operand (.number 255) ∈ lines
  | .cut _ => ∃ operand, .compute r .and operand (.number 255) ∈ lines
  | .same operand => (operand, r) ∈ places
  | .choice _ _ thenValue elseValue => ∃ type first firstFrom second secondFrom,
    .phi r type (.register first) firstFrom (.register second) secondFrom ∈ lines ∧
      (thenValue, first) ∈ places ∧ (elseValue, second) ∈ places

theorem Term.Origin.mono {frame : Frame} {places places' : List (Term × Register)}
    {lines lines' : List Instr}
    {r : Register} {t : Term} (h : t.Origin frame places lines r) (hp : places ⊆ places')
    (hl : lines ⊆ lines') :
    t.Origin frame places' lines' r := by
  cases t with
  | number => exact hl h
  | text => trivial
  | read => exact h.imp_left fun ⟨stored, mem⟩ => ⟨stored, hl mem⟩
  | call =>
    obtain ⟨result, arguments, mem⟩ := h
    exact ⟨result, arguments, hl mem⟩
  | truth =>
    obtain ⟨onTrue, onFalse, mem⟩ := h
    exact ⟨onTrue, onFalse, hl mem⟩
  | arithmetic =>
    intro byte
    obtain ⟨operand, mem⟩ := h byte
    exact ⟨operand, hl mem⟩
  | cut =>
    obtain ⟨operand, mem⟩ := h
    exact ⟨operand, hl mem⟩
  | same => exact hp h
  | choice =>
    obtain ⟨type, first, firstFrom, second, secondFrom, mem, hf, hs⟩ := h
    exact ⟨type, first, firstFrom, second, secondFrom, hl mem, hp hf, hp hs⟩

/-- Each place is filled by a line. -/
def Origins (frame : Frame) (places : List (Term × Register)) (lines : List Instr) : Prop :=
  ∀ q ∈ places, q.1.Origin frame places lines q.2

section Origins

variable {frame : Frame} {xs ys : List (Term × Register)} {lines lines' : List Instr}

theorem Origins.append (h : Origins frame xs lines) (h' : Origins frame ys lines') :
    Origins frame (xs ++ ys) (lines ++ lines') :=
  forall_mem_append.mpr
    ⟨fun q mem => (h q mem).mono (subset_append_left ..) (subset_append_left ..),
      fun q mem => (h' q mem).mono (subset_append_right ..) (subset_append_right ..)⟩

theorem Origins.mono (h : Origins frame xs lines) (hl : lines ⊆ lines') : Origins frame xs lines' :=
  fun q mem => (h q mem).mono (List.Subset.refl _) hl

theorem Origins.nil : Origins frame [] lines := forall_mem_nil _

theorem Origins.cons {t : Term} {r : Register} (first : t.Origin frame ((t, r) :: xs) lines r)
    (rest : Origins frame xs lines) : Origins frame ((t, r) :: xs) lines :=
  forall_mem_cons.mpr
    ⟨first, fun q mem =>
      (rest q mem).mono (subset_cons_of_subset _ (List.Subset.refl _)) (List.Subset.refl _)⟩

end Origins

open Step

variable {frame : Frame}

theorem Term.mem_places (t : Term) (s : NameSupply) :
    (t, (t.code frame s).place) ∈ t.places frame s := by
  cases t <;> simp [Term.places]

theorem Place.origin_code (place : Place) (s : NameSupply) {places : List (Term × Register)} :
    (Term.read place).Origin frame places ((place.code frame s).steps.map (instr noExits))
      (place.code frame s).place := by
  cases place with
  | «variable» pointer => exact .inl ⟨trivial, mem_singleton_self _⟩
  | parameter index =>
    unfold Place.code
    dsimp only
    split
    · rename_i slot found
      refine .inl ⟨⟨slot, found⟩, ?_⟩
      unfold Place.pointer
      simp only [found]
      exact mem_singleton_self _
    · exact .inr ⟨index, rfl, rfl⟩

theorem origin_computeCode (operator : Arithmetic) (left right : Register) (s : NameSupply) :
    ∃ operand, .compute (computeCode operator .byte left right s).place .and operand (.number 255)
      ∈ (computeCode operator .byte left right s).steps.map (instr noExits) :=
  ⟨_, mem_cons_of_mem _ (mem_singleton_self _)⟩

theorem origin_arithmeticCode (operator : Arithmetic) (left right : Register) (s : NameSupply) :
    ∃ operand, .compute (arithmeticCode operator .byte left right s).place .and operand
      (.number 255) ∈ (arithmeticCode operator .byte left right s).steps.map (instr noExits) := by
  unfold arithmeticCode
  split
  · obtain ⟨operand, mem⟩ := origin_computeCode operator left right (guardCode right s).names
    refine ⟨operand, ?_⟩
    rw [map_append]
    exact mem_append_right _ mem
  · exact origin_computeCode ..

mutual

theorem Term.origins : ∀ (t : Term) (s : NameSupply),
    Origins frame (t.places frame s) ((t.code frame s).steps.map (instr noExits))
  | .number value, s => .cons (mem_singleton_self _) .nil
  | .text text, s => .cons trivial .nil
  | .read place, s => .cons (Place.origin_code place s) .nil
  | .call name result arguments, s => by
    simp only [Term.places, Term.code, map_append]
    exact .cons ⟨result, _, mem_append_right _ (mem_singleton_self _)⟩
      ((arguments.origins s).mono (subset_append_left ..))
  | .truth test, s => by
    simp only [Term.places, Term.code, Code.materialize, map_append, map_instr_bind]
    exact .cons ⟨_, _,
      mem_append_right _ (.tail _ (.tail _ (.tail _ (.tail _ (.tail _ (.head _))))))⟩
      ((test.origins s _).mono (subset_append_left ..))
  | .arithmetic operator type left right, s => by
    simp only [Term.places, Term.code, map_append]
    refine .cons (fun byte => ?_) (((left.origins s).append (right.origins _)).mono
      (subset_append_left ..))
    subst byte
    obtain ⟨operand, mem⟩ := origin_arithmeticCode operator (left.code frame s).place
      (right.code frame (left.code frame s).names).place
        (right.code frame (left.code frame s).names).names
    exact ⟨operand, mem_append_right _ mem⟩
  | .cut operand, s => by
    simp only [Term.places, Term.code, map_append]
    exact .cons ⟨_, mem_append_right _ (mem_singleton_self _)⟩
      ((operand.origins s).mono (subset_append_left ..))
  | .same operand, s => .cons (mem_cons_of_mem _ (operand.mem_places s)) (operand.origins s)
  | .choice type condition thenValue elseValue, s => by
    simp only [Term.places, Term.code, map_append, map_instr_bind, map_cons]
    refine .cons ⟨type, _, _, _, _,
      mem_append_right _ (.tail _ (.tail _ (.tail _ (.tail _ (.head _))))), ?_, ?_⟩ ?_
    · exact mem_cons_of_mem _ (mem_append_left _ (mem_append_right _ (thenValue.mem_places _)))
    · exact mem_cons_of_mem _ (mem_append_right _ (elseValue.mem_places _))
    · have inside := (thenValue.origins (condition.code frame s).names.nextLabel).mono
        (subset_cons_of_subset (.label (condition.code frame s).names.label) (List.Subset.refl _))
      exact ((((condition.origins s _).append inside).mono (subset_append_left ..)).append
        (elseValue.origins _)).mono (subset_append_left ..)

theorem Test.origins : ∀ (t : Test) (s : NameSupply) (ρ : Bool → Target),
    Origins frame (t.places frame s) ((t.code frame s).steps.map (instr ρ))
  | .constant _, _, _ | .read _, _, _ => .nil
  | .call name arguments, s, ρ => by
    simp only [Test.places, Test.code, TermCode.nonzero, map_append, map_instr_lift]
    exact ((arguments.origins s).mono (subset_append_left ..)).mono (subset_append_left ..)
  | .not operand, s, ρ => by
    simp only [Test.places, Test.code, map_instr_bind]
    exact operand.origins s _
  | .and left right, s, ρ | .or left right, s, ρ => by
    simp only [Test.places, Test.code, map_append, map_cons, map_instr_bind]
    exact (left.origins s _).append ((right.origins _ ρ).mono
      (subset_cons_of_subset _ (List.Subset.refl _)))
  | .compare _ left right, s, ρ => by
    simp only [Test.places, Test.code, map_append, map_instr_lift]
    exact ((left.origins s).append (right.origins _)).mono (subset_append_left ..)
  | .same operand, s, ρ => operand.origins s ρ
  | .choice condition thenTest elseTest, s, ρ => by
    simp only [Test.places, Test.code, map_append, map_cons, map_instr_bind]
    exact ((condition.origins s _).append
      ((thenTest.origins _ ρ).mono (subset_cons_of_subset _ (List.Subset.refl _)))).append
        ((elseTest.origins _ ρ).mono (subset_cons_of_subset _ (List.Subset.refl _)))

theorem Arguments.origins : ∀ (a : Arguments) (s : NameSupply),
    Origins frame (a.places frame s) ((a.code frame s).steps.map (instr noExits))
  | .nil, _ => .nil
  | .cons _ value rest, s => by
    simp only [Arguments.places, Arguments.code, map_append]
    exact (value.origins s).append (rest.origins _)

end

mutual

theorem Action.origins : ∀ (a : Action) (s : NameSupply) (ρ : Leave → Target),
    Origins frame (a.places frame s) ((a.code frame s).steps.map (instr ρ))
  | .declare _ _ none, _, _ | .break, _, _ | .continue, _, _ | .return none, _, _ | .block .nil,
    _, _ => .nil
  | .declare _ _ (some value), s, ρ => by
    simp only [Action.places, Action.code, map_append, map_cons, map_instr_lift]
    exact ((value.origins s).mono (subset_cons_of_subset _ (List.Subset.refl _))).mono
      (subset_append_left ..)
  | .assign _ value, s, ρ | .drop value, s, ρ | .return (some value), s, ρ => by
    simp only [Action.places, Action.code, map_append, map_instr_lift]
    exact (value.origins s).mono (subset_append_left ..)
  | .run _ arguments, s, ρ => by
    simp only [Action.places, Action.code, map_append, map_instr_lift]
    exact (arguments.origins s).mono (subset_append_left ..)
  | .check condition, s, ρ => by
    simp only [Action.places, Action.code, map_append, map_instr_bind]
    exact (condition.origins s _).mono (subset_append_left ..)
  | .when condition body, s, ρ => by
    simp only [Action.places, Action.code, map_append, map_cons, map_instr_bind]
    exact (condition.origins s _).append
      ((body.origins _ ρ).mono (subset_cons_of_subset _ (List.Subset.refl _)))
  | .either condition thenBranch elseBranch, s, ρ => by
    simp only [Action.places, Action.code, map_append, map_cons, map_instr_bind]
    exact ((condition.origins s _).append
      ((thenBranch.origins _ ρ).mono (subset_cons_of_subset _ (List.Subset.refl _)))).append
        ((elseBranch.origins _ ρ).mono (subset_cons_of_subset _ (List.Subset.refl _)))
  | .loop condition body, s, ρ => by
    simp only [Action.places, Action.code, map_append, map_cons, map_instr_bind]
    exact ((condition.origins _ _).mono (subset_cons_of_subset _ (subset_cons_of_subset _
      (List.Subset.refl _)))).append ((body.origins _ _).mono
        (subset_cons_of_subset _ (List.Subset.refl _)))
  | .block (.cons first rest), s, ρ => Actions.origins (.cons first rest) s ρ

theorem Actions.origins : ∀ (as : Actions) (s : NameSupply) (ρ : Leave → Target),
    Origins frame (as.places frame s) ((as.code frame s).steps.map (instr ρ))
  | .nil, _, _ => .nil
  | .cons first .nil, s, ρ => first.origins s ρ
  | .cons first (.cons second rest), s, ρ => by
    simp only [Actions.places, Actions.code, map_append, map_cons, map_instr_bind]
    exact (first.origins s _).append
      ((Actions.origins (.cons second rest) _ ρ).mono
        (subset_cons_of_subset _ (List.Subset.refl _)))

end

theorem Routine.origins (f : Routine) (s : NameSupply) :
    Origins f.frame (f.places s) ((f.code s).steps.map (instr noExits)) := by
  have body : Origins f.frame (f.places s) ((Action.code f.frame (.block f.body) s).steps.map
      (instr fun _ => some (Action.code f.frame (.block f.body) s).names.label)) :=
    (Action.block f.body).origins s _
  simp only [Routine.code, map_append, map_instr_bind]
  exact (body.mono (subset_append_right ..)).mono (subset_append_left ..)

end Backpatch
