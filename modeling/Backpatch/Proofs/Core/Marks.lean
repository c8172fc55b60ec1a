import Backpatch.Proofs.Core.Entry
import Backpatch.Proofs.Core.Places

/-!
# Scopes of lines

Which variables are in scope where. The lines of the code of an action are marked with the variables
that are in scope before each of them (`Action.marks`): a variable is in scope from the line behind
the one that stores its first value to the end of its block.

The marks are *sound* (`Routine.sound_marks`): wherever control goes from a line, what is in scope
there is in scope here or is stored here, a value is stored only to a place that no other variable
in scope has, and only values of expressions that convert to the type of a variable are stored to
it.
-/

namespace Backpatch

open Step List

/-! ## Marks -/

/-- Marks all lines with the same variables. -/
def mark (live : Live) (lines : List Instr) : List (Live × Instr) := lines.map (live, ·)

@[simp] theorem map_snd_mark (live : Live) (lines : List Instr) :
    (mark live lines).map Prod.snd = lines := by
  unfold mark
  rw [map_map]
  exact map_id _

section Marks

variable (frame : Frame)

mutual

/-- The lines of an action, each with the variables that are in scope before it. -/
def Action.marks : Action → NameSupply → (Leave → Target) → Live → List (Live × Instr)
  | .declare offset pointer none, _, ρ, live =>
    mark live [.slotAddress (.temp pointer) frame.size offset,
      .store (.number 0) (.temp pointer)] ++ [((pointer, offset) :: live, .jump (ρ .next))]
  | .declare offset pointer (some value), s, ρ, live =>
    let a := value.code frame s
    mark live (.slotAddress (.temp pointer) frame.size offset :: a.steps.map (instr noExits)) ++
      [(live, .store (.register a.place) (.temp pointer)),
        ((pointer, offset) :: live, .jump (ρ .next))]
  | .when condition body, s, ρ, live =>
    let c := condition.code frame s
    mark live (c.steps.map (instr fun w => (orNext c.names.label w).target ρ)) ++
      (live, .label c.names.label) :: body.marks c.names.nextLabel ρ live
  | .either condition thenBranch elseBranch, s, ρ, live =>
    let c := condition.code frame s
    let a := thenBranch.code frame c.names.nextLabel
    mark live (c.steps.map (instr fun w => (toLabels c.names.label a.names.label w).target ρ)) ++
      (live, .label c.names.label) :: thenBranch.marks c.names.nextLabel ρ live ++
      (live, .label a.names.label) :: elseBranch.marks a.names.nextLabel ρ live
  | .loop condition body, s, ρ, live =>
    let c := condition.code frame s.nextLabel
    mark live (.jump (some s.label) :: .label s.label ::
        c.steps.map (instr fun w => (orNext c.names.label w).target ρ)) ++
      (live, .label c.names.label) :: body.marks c.names.nextLabel
        (fun w => (backTo s.label w).target ρ) live
  | .block (.cons first rest), s, ρ, live => Actions.marks (.cons first rest) s ρ live
  | .assign place value, s, ρ, live =>
    mark live ((Action.code frame (.assign place value) s).steps.map (instr ρ))
  | .drop value, s, ρ, live => mark live ((Action.code frame (.drop value) s).steps.map (instr ρ))
  | .run name arguments, s, ρ, live =>
    mark live ((Action.code frame (.run name arguments) s).steps.map (instr ρ))
  | .check condition, s, ρ, live =>
    mark live ((Action.code frame (.check condition) s).steps.map (instr ρ))
  | .break, s, ρ, live => mark live ((Action.code frame .break s).steps.map (instr ρ))
  | .continue, s, ρ, live => mark live ((Action.code frame .continue s).steps.map (instr ρ))
  | .return value, s, ρ, live =>
    mark live ((Action.code frame (.return value) s).steps.map (instr ρ))
  | .block .nil, s, ρ, live => mark live ((Action.code frame (.block .nil) s).steps.map (instr ρ))

def Actions.marks : Actions → NameSupply → (Leave → Target) → Live → List (Live × Instr)
  | .nil, _, _, _ => []
  | .cons first .nil, s, ρ, live => first.marks s ρ live
  | .cons first (.cons second rest), s, ρ, live =>
    let a := first.code frame s
    first.marks s (fun w => (Exit.connect .next a.names.label w).target ρ) live ++
      (first.declared ++ live, .label a.names.label) ::
        Actions.marks (.cons second rest) a.names.nextLabel ρ (first.declared ++ live)

end

end Marks

/-- The lines of a function, each with the variables that are in scope before it. -/
def Routine.marks (f : Routine) (s : NameSupply) : List (Live × Instr) :=
  let done := (Action.code f.frame (.block f.body) s).names.label
  mark [] (f.frameLines ++ Routine.spillLines 0 f.slots) ++
    Action.marks f.frame (.block f.body) s (fun _ => some done) [] ++
    mark [] (.label done :: f.endLines)

section Lines

variable {frame : Frame}

mutual

theorem Action.map_marks : ∀ (a : Action) (s : NameSupply) (ρ : Leave → Target) (live : Live),
    (a.marks frame s ρ live).map Prod.snd = (a.code frame s).steps.map (instr ρ)
  | .declare _ _ none, _, _, _ => rfl
  | .declare _ _ (some value), s, ρ, live => by
    simp only [Action.marks, Action.code, map_append, map_cons, map_instr_lift, map_snd_mark]
    rfl
  | .when _ body, s, ρ, live | .loop _ body, s, ρ, live => by
    simp only [Action.marks, Action.code, map_append, map_cons, map_instr_bind, map_snd_mark,
      body.map_marks]
    rfl
  | .either _ thenBranch elseBranch, s, ρ, live => by
    simp only [Action.marks, Action.code, map_append, map_cons, map_instr_bind, map_snd_mark,
      thenBranch.map_marks, elseBranch.map_marks]
    rfl
  | .block (.cons first rest), s, ρ, live => Actions.map_marks (.cons first rest) s ρ live
  | .assign .., _, _, live | .drop _, _, _, live | .run .., _, _, live | .check _, _, _, live
  | .break, _, _, live | .continue, _, _, live | .return _, _, _, live | .block .nil, _, _, live =>
    map_snd_mark live _

theorem Actions.map_marks : ∀ (as : Actions) (s : NameSupply) (ρ : Leave → Target) (live : Live),
    (as.marks frame s ρ live).map Prod.snd = (as.code frame s).steps.map (instr ρ)
  | .nil, _, _, _ => rfl
  | .cons first .nil, s, ρ, live => first.map_marks s ρ live
  | .cons first (.cons second rest), s, ρ, live => by
    simp only [Actions.marks, Actions.code, map_append, map_cons, map_instr_bind, first.map_marks,
      Actions.map_marks (.cons second rest)]
    rfl

end

end Lines

theorem map_instr_line {W : Type} (ρ : W → Target) (lines : List Instr) :
    (lines.map Step.line).map (instr ρ) = lines := by
  rw [map_map]
  exact map_id _

theorem Routine.map_marks (f : Routine) (s : NameSupply) :
    (f.marks s).map Prod.snd = (f.code s).steps.map (instr noExits) := by
  simp only [Routine.marks, Routine.code, map_append, map_snd_mark, map_instr_bind, map_instr_line,
    Action.map_marks]
  rfl

/-! ## Sound marks -/

/-- What the lines of a function are judged by: the types of its names, its frame, the places of its
expressions, all its lines, and the variables that are in scope at its labels. -/
structure Survey where
  types : Types
  frame : Frame
  places : List (Term × Register)
  lines : List Instr
  scopes : Label → Live

namespace Survey

variable (K : Survey)

/-- The operand is zero, a parameter of the type, or the value of an expression that converts to the
type. -/
def Bounded (type : Ty) : Operand → Prop
  | .number n => n = 0
  | .register r => (∃ index, r = .argument index ∧ K.types.parameters[index]? = some type) ∨
      ∃ t, (t, r) ∈ K.places ∧ t.ConvertsTo K.types type

def Passed : List (IrType × Operand) → List Ty → Prop
  | [], types => types = []
  | argument :: rest, types =>
    ∃ type types', types = type :: types' ∧ K.Bounded type argument.2 ∧ Passed rest types'

/-- The function that is called is part of the runtime, or gets arguments of the types of its
parameters. -/
def Calls (name : String) (arguments : List (IrType × Operand)) : Prop :=
  name = zeroDivisionHandler ∨ name = "exit" ∨
    ∃ result parameters, K.types.functions name = some (result, parameters) ∧
      K.Passed arguments parameters

/-- The line that gives the address of a variable puts it at the place that it has. -/
def Addressed (q : Nat × Nat) : Prop := ∃ size, .slotAddress (.temp q.1) size q.2 ∈ K.lines

/-- A place is read: that of a variable in scope, or the own place of a parameter. -/
def Loads (scope : Live) (pointer : Register) : Place → Prop
  | .variable p => pointer = .temp p ∧ ∃ offset, K.Addressed (p, offset) ∧ (p, offset) ∈ scope
  | .parameter index => K.frame.slots[index]? = some (some pointer)

/-- A variable comes into scope or is assigned to. No other variable that stays in scope has its
place. -/
def Stores (scope next : Live) (value : Operand) (pointer : Register) : Place → Prop
  | .variable p =>
      pointer = .temp p ∧ (∃ type, K.types.locals p = some type ∧ K.Bounded type value) ∧
      ∃ offset, K.Addressed (p, offset) ∧ ∀ q ∈ next, q = (p, offset) ∨ q ∈ scope ∧ q.2 ≠ offset
  | .parameter index => next ⊆ scope ∧ K.frame.slots[index]? = some (some pointer) ∧
      ∃ type, K.types.parameters[index]? = some type ∧ K.Bounded type value

/-- The line may stand where the variables are in scope, and others are behind it. -/
def Fits (scope next : Live) : Instr → Prop
  | .label l => next ⊆ K.scopes l
  | .jump target => ∀ l ∈ target.toList, K.scopes l ⊆ scope
  | .branch _ onTrue onFalse => ∀ l ∈ onTrue.toList ++ onFalse.toList, K.scopes l ⊆ scope
  | .ret none => True
  | .ret (some (_, value)) => K.Bounded K.frame.returnType value
  | .load _ pointer => next ⊆ scope ∧ ∃ place, K.Loads scope pointer place
  | .store value pointer => ∃ place, K.Stores scope next value pointer place
  | .call _ name arguments => next ⊆ scope ∧ K.Calls name arguments
  | _ => next ⊆ scope

/-- The variables in scope at the first of the lines, or else at what follows. -/
def first (last : Live) : List (Live × Instr) → Live
  | [] => last
  | (scope, _) :: _ => scope

/-- Every line may stand where it does. -/
def Sound : List (Live × Instr) → Live → Prop
  | [], _ => True
  | (scope, i) :: rest, last => K.Fits scope (first last rest) i ∧ Sound rest last

end Survey

namespace Survey

variable {K : Survey}

variable {last live : Live} {lines : List Instr}

theorem sound_append {xs ys : List (Live × Instr)} :
    K.Sound (xs ++ ys) last ↔ K.Sound xs (first last ys) ∧ K.Sound ys last := by
  induction xs with
  | nil => exact ⟨fun h => ⟨trivial, h⟩, fun h => h.2⟩
  | cons x xs ih =>
    have same : first last (xs ++ ys) = first (first last ys) xs := by cases xs <;> rfl
    rw [cons_append, Sound, Sound, ih, same, and_assoc]

/-- Lines inside which nothing comes into scope. -/
theorem sound_mark (h : ∀ i ∈ lines, K.Fits live live i) : K.Sound (mark live lines) live := by
  induction lines with
  | nil => trivial
  | cons i lines ih =>
    obtain ⟨here, rest⟩ := forall_mem_cons.mp h
    have same : first live (mark live lines) = live := by cases lines <;> rfl
    refine ⟨?_, ih rest⟩
    show K.Fits live (first live (mark live lines)) i
    rw [same]
    exact here

theorem sound_cons_label {l : Label} {rest : List (Live × Instr)} (h : first last rest ⊆ K.scopes l)
    (hrest : K.Sound rest last) : K.Sound ((live, .label l) :: rest) last :=
  ⟨h, hrest⟩

/-! ### Code of terms -/

/-- A line inside the code of a term. -/
def Inside (K : Survey) (live : Live) : Instr → Prop
  | .load _ pointer => ∃ place, K.Loads live pointer place
  | .call _ name arguments => K.Calls name arguments
  | .label _ | .jump _ | .branch .. | .compute .. | .compare .. | .phi .. | .stringAddress .. =>
    True
  | _ => False

/-- Lines inside the code of a term may stand where they do, if control stays where the same
variables are in scope. -/
theorem Inside.fits (h : ∀ i ∈ lines, K.Inside live i)
    (labels : ∀ l ∈ labelsOf lines, live ⊆ K.scopes l)
    (targets : ∀ l ∈ targetsOf lines, K.scopes l ⊆ live) : ∀ i ∈ lines, K.Fits live live i := by
  intro i mem
  have inner := h i mem
  have same : live ⊆ live := List.Subset.refl live
  cases i with
  | label l => exact labels l (mem_filterMap.mpr ⟨_, mem, rfl⟩)
  | jump target | branch c onTrue onFalse =>
    exact fun l inside => targets l (mem_flatMap.mpr ⟨_, mem, inside⟩)
  | load | call => exact ⟨same, inner⟩
  | compute | compare | phi | stringAddress => exact same
  | _ => exact inner.elim

end Survey

open Survey

section Terms

variable {K : Survey} {live : Live} {Q : Signatures}

theorem Place.inner_code (addressed : ∀ q ∈ live, K.Addressed q) {place : Place}
    (h : place.Reached K.frame live)
    (s : NameSupply) : AllFulfil (K.Inside live) (fun _ => True) (place.code K.frame s).steps := by
  cases place with
  | «variable» pointer =>
    obtain ⟨offset, mem⟩ := h
    exact allFulfil_cons.mpr ⟨⟨.variable pointer, rfl, offset, addressed _ mem, mem⟩, allFulfil_nil⟩
  | parameter index =>
    unfold Place.code
    dsimp only
    split
    · rename_i slot found
      exact allFulfil_cons.mpr ⟨⟨.parameter index, found⟩, allFulfil_nil⟩
    · exact allFulfil_nil

attribute [local simp] Term.code Survey.Inside

theorem inner_nonzero {c : TermCode} (h : AllFulfil (K.Inside live) (fun _ => True) c.steps) :
    AllFulfil (K.Inside live) (fun _ => True) c.nonzero.steps := by
  simp [TermCode.nonzero, branchOn, h]

theorem inner_arithmeticCode (operator : Arithmetic) (type : Ty) (left right : Register)
    (s : NameSupply) :
    AllFulfil (K.Inside live) (fun _ => True)
      (arithmeticCode operator type left right s).steps := by
  have compute (s : NameSupply) :
      AllFulfil (K.Inside live) (fun _ => True) (computeCode operator type left right s).steps := by
    unfold computeCode
    dsimp only
    split <;> simp [cutCode]
  unfold arithmeticCode
  split
  · simp only [allFulfil_append, compute, and_true]
    simp [guardCode, Survey.Calls]
  · exact compute s

mutual

theorem Term.inner_code (addressed : ∀ q ∈ live, K.Addressed q) {type : Ty} :
    ∀ (t : Term), t.HasType K.types type → t.All (Place.Reached K.frame live) Q →
      ∀ (s : NameSupply),
      t.places K.frame s ⊆ K.places → AllFulfil (K.Inside live) (fun _ => True)
        (t.code K.frame s).steps
  | .number _, _, _, s, _ | .text _, _, _, s, _ => by simp
  | .read _, _, all, s, _ => Place.inner_code addressed all s
  | .call name _ arguments, h, all, s, places => by
    obtain ⟨-, -, -, parameters, found, types⟩ := h
    obtain ⟨lines, passed⟩ :=
      arguments.inner_code addressed types all.2 s fun q mem => places (.tail _ mem)
    have call : K.Calls name (arguments.code K.frame s).operands :=
      .inr (.inr ⟨_, parameters, found, passed⟩)
    exact allFulfil_append.mpr ⟨lines, allFulfil_cons.mpr ⟨call, allFulfil_nil⟩⟩
  | .truth test, h, all, s, places => by
    have lines := test.inner_code addressed h.2 all s fun q mem => places (.tail _ mem)
    simp [Code.materialize, lines]
  | .arithmetic operator type left right, h, all, s, places => by
    obtain ⟨rfl, a, b, hl, hr, -⟩ := h
    have first :=
      left.inner_code addressed hl all.1 s fun q mem => places (.tail _ (mem_append_left _ mem))
    have second := right.inner_code addressed hr all.2 (left.code K.frame s).names
      fun q mem => places (.tail _ (mem_append_right _ mem))
    exact allFulfil_append.mpr ⟨allFulfil_append.mpr ⟨first, second⟩,
      inner_arithmeticCode _ _ _ _ _⟩
  | .cut operand, h, all, s, places => by
    have lines := operand.inner_code addressed h.2 all s fun q mem => places (.tail _ mem)
    simp [cutCode, lines]
  | .same operand, h, all, s, places => by
    obtain ⟨-, source, hs, -⟩ := h
    exact operand.inner_code addressed hs all s fun q mem => places (.tail _ mem)
  | .choice _ condition thenValue elseValue, h, all, s, places => by
    obtain ⟨-, -, -, hc, a, b, ha, hb, -⟩ := h
    have test := condition.inner_code addressed hc all.1 s
      fun q mem => places (.tail _ (mem_append_left _ (mem_append_left _ mem)))
    have first :=
      thenValue.inner_code addressed ha all.2.1 (condition.code K.frame s).names.nextLabel
      fun q mem => places (.tail _ (mem_append_left _ (mem_append_right _ mem)))
    have second := elseValue.inner_code addressed hb all.2.2 _
      fun q mem => places (.tail _ (mem_append_right _ mem))
    simp [test, first, second]

theorem Test.inner_code (addressed : ∀ q ∈ live, K.Addressed q) :
    ∀ (t : Test), t.WellTyped K.types →
    t.All (Place.Reached K.frame live) Q → ∀ (s : NameSupply), t.places K.frame s ⊆ K.places →
      AllFulfil (K.Inside live) (fun _ => True) (t.code K.frame s).steps
  | .constant _, _, _, s, _ => by simp [Test.code]
  | .read _, _, all, s, _ => inner_nonzero (Place.inner_code addressed all s)
  | .call name arguments, h, all, s, places => by
    obtain ⟨parameters, found, types⟩ := h
    obtain ⟨lines, passed⟩ := arguments.inner_code addressed types all.2 s places
    have call : K.Calls name (arguments.code K.frame s).operands :=
      .inr (.inr ⟨_, parameters, found, passed⟩)
    exact inner_nonzero (allFulfil_append.mpr ⟨lines, allFulfil_cons.mpr ⟨call, allFulfil_nil⟩⟩)
  | .not operand, h, all, s, places => by
    simp only [Test.code, allFulfil_map_bind]
    exact operand.inner_code addressed h all s places
  | .and left right, h, all, s, places | .or left right, h, all, s, places => by
    simp only [Test.code, allFulfil_append, allFulfil_map_bind, allFulfil_cons]
    exact ⟨left.inner_code addressed h.1 all.1 s fun q mem =>
      places (mem_append_left _ mem), trivial, right.inner_code addressed h.2 all.2 _ fun q mem =>
      places (mem_append_right _ mem)⟩
  | .compare _ left right, h, all, s, places => by
    obtain ⟨a, b, hl, hr, -⟩ := h
    have first := left.inner_code addressed hl all.1 s fun q mem => places (mem_append_left _ mem)
    have second :=
      right.inner_code addressed hr all.2 _ fun q mem => places (mem_append_right _ mem)
    simp [Test.code, branchOn, first, second]
  | .same operand, h, all, s, places => operand.inner_code addressed h all s places
  | .choice condition thenTest elseTest, h, all, s, places => by
    simp only [Test.code, allFulfil_append, allFulfil_map_bind, allFulfil_cons]
    exact ⟨⟨condition.inner_code addressed h.1 all.1 s
        fun q mem => places (mem_append_left _ (mem_append_left _ mem)), trivial,
      thenTest.inner_code addressed h.2.1 all.2.1 _
        fun q mem => places (mem_append_left _ (mem_append_right _ mem))⟩, trivial,
      elseTest.inner_code addressed h.2.2 all.2.2 _ fun q mem => places (mem_append_right _ mem)⟩

theorem Arguments.inner_code (addressed : ∀ q ∈ live, K.Addressed q) {types : List Ty} :
    ∀ (a : Arguments), a.HaveTypes K.types types → a.All (Place.Reached K.frame live) Q →
      ∀ (s : NameSupply), a.places K.frame s ⊆ K.places →
      AllFulfil (K.Inside live) (fun _ => True) (a.code K.frame s).steps ∧
        K.Passed (a.code K.frame s).operands types
  | .nil, h, _, s, _ => ⟨allFulfil_nil, h⟩
  | .cons _ value rest, h, all, s, places => by
    obtain ⟨type, types, rfl, rfl, converts, hrest⟩ := h
    have inside := fun q mem => places (mem_append_left _ (a := q) mem)
    have ⟨source, hv, _⟩ := converts
    have first := value.inner_code addressed hv all.1 s inside
    obtain ⟨second, passed⟩ :=
      rest.inner_code addressed hrest all.2 _ fun q mem => places (mem_append_right _ mem)
    refine ⟨allFulfil_append.mpr ⟨first, second⟩, type, types, rfl, ?_, passed⟩
    exact .inr ⟨value, inside _ (value.mem_places s), converts⟩

end

end Terms

/-! ### Pieces of code -/

/-- What a piece of marked code shares with the survey of its function: its labels have the scopes
that the survey gives them, and its lines and the places of its expressions are among those of the
function. -/
structure Survey.Covers (K : Survey) (marks : List (Live × Instr))
    (places : List (Term × Register)) : Prop where
  labels : ∀ live l, (live, .label l) ∈ marks → K.scopes l = live
  lines : ∀ m ∈ marks, m.2 ∈ K.lines
  places : places ⊆ K.places

/-- Where control goes, nothing else is in scope than these variables. -/
def Survey.Leads (K : Survey) (live : Live) (target : Target) : Prop :=
  ∃ l, target = some l ∧ K.scopes l ⊆ live

section Pieces

variable {K : Survey} {live last : Live} {lines : List Instr} {marks marks' : List (Live × Instr)}
  {places places' : List (Term × Register)}

theorem Survey.Covers.mono (h : K.Covers marks places) (hm : marks' ⊆ marks)
    (hp : places' ⊆ places) : K.Covers marks' places' :=
  ⟨fun live l mem => h.labels live l (hm mem), fun m mem => h.lines m (hm mem), fun _ mem =>
    h.places (hp mem)⟩

theorem Survey.Covers.append {xs ys : List (Live × Instr)} {ps qs : List (Term × Register)}
    (h : K.Covers (xs ++ ys) (ps ++ qs)) : K.Covers xs ps ∧ K.Covers ys qs :=
  ⟨h.mono (subset_append_left _ _) (subset_append_left _ _),
    h.mono (subset_append_right _ _) (subset_append_right _ _)⟩

theorem Survey.Covers.tail {m : Live × Instr} (h : K.Covers (m :: marks) places) :
    K.Covers marks places :=
  h.mono (subset_cons_self _ _) (List.Subset.refl _)

/-- Lines inside the code of a term may stand where they do, if all branches stay inside or go where
nothing else is in scope. -/
theorem Survey.Covers.fits (h : K.Covers (mark live lines) places)
    (inner : ∀ i ∈ lines, K.Inside live i)
    (targets : ∀ l ∈ targetsOf lines, l ∈ labelsOf lines ∨ K.scopes l ⊆ live) :
    ∀ i ∈ lines, K.Fits live live i := by
  have labels : ∀ l ∈ labelsOf lines, K.scopes l = live := by
    intro l mem
    obtain ⟨i, inside, label⟩ := mem_filterMap.mp mem
    cases i with
    | label l' =>
      cases label
      exact h.labels live l (mem_map.mpr ⟨_, inside, rfl⟩)
    | _ => cases label
  refine Inside.fits inner (fun l mem => ?_) fun l mem => ?_
  · rw [labels l mem]
    exact List.Subset.refl live
  · rcases targets l mem with inside | outside
    · rw [labels l inside]
      exact List.Subset.refl live
    · exact outside

theorem mark_append (live : Live) (xs ys : List Instr) :
    mark live (xs ++ ys) = mark live xs ++ mark live ys :=
  map_append

theorem Survey.sound_mark_append (h : ∀ i ∈ lines, K.Fits live live i)
    (start : first last marks = live)
    (rest : K.Sound marks last) : K.Sound (mark live lines ++ marks) last := by
  rw [sound_append, start]
  exact ⟨sound_mark h, rest⟩

variable {s : NameSupply} {target : Target}

theorem Survey.Leads.mono {live' : Live} (h : K.Leads live target) (hl : live ⊆ live') :
    K.Leads live' target := by
  obtain ⟨l, eq, sub⟩ := h
  exact ⟨l, eq, fun q mem => hl (sub mem)⟩

theorem Survey.Leads.fits_jump (h : K.Leads live target) : K.Fits live last (.jump target) := by
  obtain ⟨l, rfl, sub⟩ := h
  exact forall_mem_singleton.mpr sub

variable {Q : Signatures} {type : Ty} (addressed : ∀ q ∈ live, K.Addressed q)

include addressed

theorem Term.fits_code {t : Term} (typed : t.HasType K.types type)
    (all : t.All (Place.Reached K.frame live) Q)
    (covers : K.Covers (mark live ((t.code K.frame s).steps.map (instr noExits)))
      (t.places K.frame s)) :
    ∀ i ∈ (t.code K.frame s).steps.map (instr noExits), K.Fits live live i := by
  have inner := t.inner_code addressed typed all s covers.places
  obtain ⟨D, passes, -⟩ : (t.code K.frame s).Passes fun _ => True :=
    t.passes_code (all.imp (fun _ _ => trivial) fun _ _ _ => id) s
  exact covers.fits (inner.instr (fun _ => trivial) fun _ _ _ _ => trivial)
    fun l mem => .inl (passes.targets_mem l mem)

theorem Arguments.fits_code {a : Arguments} {types : List Ty} (typed : a.HaveTypes K.types types)
    (all : a.All (Place.Reached K.frame live) Q)
    (covers : K.Covers (mark live ((a.code K.frame s).steps.map (instr noExits)))
      (a.places K.frame s)) :
    (∀ i ∈ (a.code K.frame s).steps.map (instr noExits), K.Fits live live i) ∧
      K.Passed (a.code K.frame s).operands types := by
  obtain ⟨inner, passed⟩ := a.inner_code addressed typed all s covers.places
  obtain ⟨D, passes, -⟩ : ∃ D, Passes (fun _ => True)
      ((a.code K.frame s).steps.map (instr noExits)) D ∧ _ :=
    a.passes_code (all.imp (fun _ _ => trivial) fun _ _ _ => id) s
  exact ⟨covers.fits (inner.instr (fun _ => trivial) fun _ _ _ _ => trivial)
    fun l mem => .inl (passes.targets_mem l mem), passed⟩

theorem Test.fits_code {t : Test} (typed : t.WellTyped K.types)
    (all : t.All (Place.Reached K.frame live) Q)
    {ρ : Bool → Target} (exits : ∀ b, K.Leads live (ρ b))
    (covers : K.Covers (mark live ((t.code K.frame s).steps.map (instr ρ))) (t.places K.frame s)) :
    ∀ i ∈ (t.code K.frame s).steps.map (instr ρ), K.Fits live live i := by
  have inner := t.inner_code addressed typed all s covers.places
  have admits (b : Bool) : Outlets.Admits (fun l _ => K.scopes l ⊆ live) (fun _ => True) (ρ b) := by
    obtain ⟨l, eq, sub⟩ := exits b
    exact ⟨l, fun _ => True, eq, sub, fun _ => id⟩
  have leaves : Leaves _ _ ((t.code K.frame s).steps.map (instr ρ)) :=
    t.leaves_code (all.imp (fun _ _ => trivial) fun _ _ _ => id) s admits
  exact covers.fits (inner.instr (fun _ => trivial) fun _ _ _ _ => trivial)
    fun l mem => (leaves.targets_mem l mem).imp_right fun ⟨_, sub⟩ => sub

end Pieces

/-! ### Code of actions -/

variable {last live : Live} {rest : List (Live × Instr)}

theorem Survey.first_mark_append (h : first last rest = live) (lines : List Instr) :
    first last (mark live lines ++ rest) = live := by
  cases lines with
  | nil => exact h
  | cons => rfl

theorem Survey.first_mark {lines : List Instr} (h : lines ≠ []) :
    first last (mark live lines ++ rest) = live := by
  cases lines with
  | nil => exact absurd rfl h
  | cons => rfl

section Actions

variable {frame : Frame}

mutual

/-- What is in scope before an action is in scope before its first line. -/
theorem Action.first_marks {s : NameSupply} {ρ : Leave → Target} {live last : Live}
    {rest : List (Live × Instr)} :
    ∀ (a : Action), first last (a.marks frame s ρ live ++ rest) = live
  | .declare _ _ none | .declare _ _ (some _) | .loop _ _ | .break | .continue | .return
    none | .block .nil => rfl
  | .assign .. | .drop _ | .run .. | .check _ | .return (some _) =>
    first_mark (by simp [Action.code])
  | .when _ _ | .either _ _ _ => by
    simp only [Action.marks, append_assoc]
    refine first_mark_append ?_ _
    rfl
  | .block (.cons first rest) => Actions.first_marks (.cons first rest) Actions.noConfusion

theorem Actions.first_marks : ∀ (as : Actions), as ≠ .nil → ∀ {s : NameSupply} {ρ : Leave → Target}
    {live last : Live} {rest : List (Live × Instr)},
      first last (as.marks frame s ρ live ++ rest) = live
  | .nil, nonempty, _, _, _, _, _ => absurd rfl nonempty
  | .cons first .nil, _, _, _, _, _, _ => first.first_marks
  | .cons first (.cons second rest), _, _, _, _, _, _ => by
    simp only [Actions.marks, append_assoc]
    exact first.first_marks

end

end Actions

/-- The variables in scope have addresses, and different places in the frame. -/
structure Survey.Keeps (K : Survey) (live : Live) : Prop where
  addressed : ∀ q ∈ live, K.Addressed q
  distinct : ∀ q ∈ live, ∀ q' ∈ live, q.2 = q'.2 → q = q'

/-- Both jumps of a loop lead where nothing else is in scope. -/
def Survey.Loops (K : Survey) (live : Live) (ρ : Leave → Target) : Prop :=
  K.Leads live (ρ .break) ∧ K.Leads live (ρ .continue)

section Sound

variable {K : Survey} {live : Live} {limit : Nat} {Q : Signatures}

variable {pointer offset : Nat} (free : live.Free K.frame limit pointer offset)

include free

theorem Live.Free.offset_ne : ∀ q ∈ live, q.2 ≠ offset := by
  rintro ⟨p, o⟩ mem rfl
  exact free.newOffset p mem

/-- The first value is stored where no other variable in scope has its place. -/
theorem Survey.stores_declared {type : Ty} (found : K.types.locals pointer = some type)
    {value : Operand} (bounded : K.Bounded type value) (here : K.Addressed (pointer, offset)) :
    K.Stores live ((pointer, offset) :: live) value (.temp pointer) (.variable pointer) :=
  ⟨rfl, ⟨type, found, bounded⟩, offset, here,
    forall_mem_cons.mpr ⟨.inl rfl, fun q mem => .inr ⟨mem, free.offset_ne q mem⟩⟩⟩

theorem Survey.Keeps.declare (h : K.Keeps live) (here : K.Addressed (pointer, offset)) :
    K.Keeps ((pointer, offset) :: live) := by
  have fresh := free.offset_ne
  refine ⟨forall_mem_cons.mpr ⟨here, h.addressed⟩, fun q mem q' mem' same => ?_⟩
  rcases mem_cons.mp mem with rfl | old
  · rcases mem_cons.mp mem' with rfl | old'
    · rfl
    · exact absurd same.symm (fresh q' old')
  · rcases mem_cons.mp mem' with rfl | old'
    · exact absurd same (fresh q old)
    · exact h.distinct q old q' old' same

omit free

variable {ρ : Leave → Target} {onTrue : Label}

theorem Action.keeps_declared (a : Action) {inLoop : Bool}
    (inScope : a.Scoped K.frame limit Q inLoop live)
    (h : K.Keeps live) {s : NameSupply} {places : List (Term × Register)}
    (covers : K.Covers (a.marks K.frame s ρ live) places) : K.Keeps (a.declared ++ live) := by
  cases a with
  | declare offset pointer initial =>
    cases initial with
    | none => exact h.declare inScope ⟨_, covers.lines _ mem_cons_self⟩
    | some value => exact h.declare inScope.1 ⟨_, covers.lines _ mem_cons_self⟩
  | _ => exact h

theorem Survey.leads_label {l : Label} (h : K.scopes l = live) : K.Leads live (some l) :=
  ⟨l, rfl, fun _ mem => h ▸ mem⟩

theorem Survey.leads_toLabels {onFalse : Label} (ht : K.scopes onTrue = live)
    (hf : K.scopes onFalse = live) : ∀ b, K.Leads live ((toLabels onTrue onFalse b).target ρ) := by
  intro b
  cases b with
  | true => exact leads_label ht
  | false => exact leads_label hf

theorem Survey.leads_orNext (ht : K.scopes onTrue = live) (next : K.Leads live (ρ .next)) :
    ∀ b, K.Leads live ((orNext onTrue b).target ρ) := by
  intro b
  cases b with
  | true => exact leads_label ht
  | false => exact next

/-- A value is stored to a variable that is in scope. -/
theorem Survey.Keeps.stores (h : K.Keeps live) {place : Place}
    (reached : place.Reached K.frame live)
    (stored : place.Stored K.frame) {type : Ty} (found : K.types.place place = some type)
    {value : Operand}
    (bounded : K.Bounded type value) : K.Stores live live value (place.pointer K.frame) place := by
  cases place with
  | «variable» pointer =>
    obtain ⟨offset, mem⟩ := reached
    refine ⟨rfl, ⟨type, found, bounded⟩, offset, h.addressed _ mem, fun q inside => ?_⟩
    by_cases same : q.2 = offset
    · exact .inl (h.distinct q inside _ mem same)
    · exact .inr ⟨inside, same⟩
  | parameter index =>
    obtain ⟨slot, eq⟩ := stored
    refine ⟨List.Subset.refl live, ?_, type, found, bounded⟩
    unfold Place.pointer
    simp only [eq]
    rfl

mutual

/-- The marks of an action are sound where its variables have their places, if it is left only to
where nothing else is in scope. -/
theorem Action.sound_marks {inLoop : Bool} {live : Live} :
    ∀ (a : Action), a.Scoped K.frame limit Q inLoop live → a.WellTyped K.types K.frame.returnType →
      K.Keeps live →
      ∀ {s : NameSupply} {ρ : Leave → Target}, K.Leads (a.declared ++ live) (ρ .next) →
      (inLoop = true → K.Loops live ρ) → K.Covers (a.marks K.frame s ρ live) (a.places K.frame s) →
        ∀ {last : Live},
      K.Sound (a.marks K.frame s ρ live) last
  | .declare offset pointer none, inScope, typed, keeps, s, ρ, next, _, covers, last => by
    obtain ⟨type, found⟩ := typed
    have address : K.Addressed (pointer, offset) := ⟨_, covers.lines _ mem_cons_self⟩
    exact ⟨List.Subset.refl live, ⟨_, stores_declared inScope found rfl address⟩, next.fits_jump,
      trivial⟩
  | .declare offset pointer (some value), inScope, typed, keeps, s, ρ, next, _, covers, last => by
    obtain ⟨type, found, converts⟩ := typed
    have ⟨source, hv, _⟩ := converts
    have address : K.Addressed (pointer, offset) := ⟨_, covers.lines _ mem_cons_self⟩
    have bounded : K.Bounded type (.register (value.code K.frame s).place) :=
      .inr ⟨value, covers.places (value.mem_places s), converts⟩
    have lines := Term.fits_code keeps.addressed hv inScope.2 (s := s)
      (covers.mono (fun m mem => mem_append_left _ (mem_cons_of_mem _ mem)) (List.Subset.refl _))
    exact sound_mark_append (forall_mem_cons.mpr ⟨List.Subset.refl live, lines⟩) rfl
      ⟨⟨_, stores_declared inScope.1 found bounded address⟩, next.fits_jump, trivial⟩
  | .assign place value, inScope, typed, keeps, s, ρ, next, _, covers, last => by
    obtain ⟨type, found, converts⟩ := typed
    have ⟨source, hv, _⟩ := converts
    simp only [Action.marks, Action.code, map_append, map_instr_lift, mark_append] at covers ⊢
    have lines := Term.fits_code keeps.addressed hv inScope.2.2 (s := s)
      (covers.mono (subset_append_left _ _) (List.Subset.refl _))
    have bounded : K.Bounded type (.register (value.code K.frame s).place) :=
      .inr ⟨value, covers.places (value.mem_places s), converts⟩
    exact sound_mark_append lines rfl
      ⟨⟨_, keeps.stores inScope.1 inScope.2.1 found bounded⟩, next.fits_jump, trivial⟩
  | .drop value, inScope, typed, keeps, s, ρ, next, _, covers, last => by
    obtain ⟨type, hv⟩ := typed
    simp only [Action.marks, Action.code, map_append, map_instr_lift, mark_append] at covers ⊢
    have lines := Term.fits_code keeps.addressed hv inScope (s := s)
      (covers.mono (subset_append_left _ _) (List.Subset.refl _))
    exact sound_mark_append lines rfl ⟨next.fits_jump, trivial⟩
  | .run name arguments, inScope, typed, keeps, s, ρ, next, _, covers, last => by
    obtain ⟨parameters, found, types⟩ := typed
    simp only [Action.marks, Action.code, map_append, map_instr_lift, mark_append] at covers ⊢
    obtain ⟨lines, passed⟩ := Arguments.fits_code keeps.addressed types inScope.2 (s := s)
      (covers.mono (subset_append_left _ _) (List.Subset.refl _))
    exact sound_mark_append lines rfl
      ⟨⟨List.Subset.refl live, .inr (.inr ⟨_, parameters, found, passed⟩)⟩, next.fits_jump, trivial⟩
  | .check condition, inScope, typed, keeps, s, ρ, next, _, covers, last => by
    simp only [Action.marks, Action.code, map_append, map_instr_bind, mark_append] at covers ⊢
    have here : K.scopes (condition.code K.frame s).names.label = live :=
      covers.labels _ _ (mem_append_right _ mem_cons_self)
    have lines := Test.fits_code keeps.addressed typed inScope (s := s)
      (fun _ => leads_label here) (covers.mono (subset_append_left _ _) (List.Subset.refl _))
    exact sound_mark_append lines rfl ⟨fun _ mem => here.symm ▸ mem, next.fits_jump, trivial⟩
  | .when condition body, inScope, typed, keeps, s, ρ, next, out, covers, last => by
    simp only [Action.marks, Action.places] at covers ⊢
    obtain ⟨test, rest⟩ := covers.append
    have here := rest.labels _ _ mem_cons_self
    -- The variables of the body go out of scope where it is left.
    refine sound_mark_append (Test.fits_code keeps.addressed typed.1 inScope.1
      (leads_orNext here next) test) rfl
      (sound_cons_label ?_ (body.sound_marks inScope.2 typed.2 keeps
        (next.mono (subset_append_right _ _)) out rest.tail))
    rw [here, ← List.append_nil (Action.marks ..), Action.first_marks]
    exact List.Subset.refl live
  | .either condition thenBranch elseBranch, inScope, typed, keeps, s, ρ, next, out,
      covers, last => by
    simp only [Action.marks, Action.places, append_assoc, cons_append] at covers ⊢
    obtain ⟨test, rest⟩ := covers.append
    obtain ⟨first, second⟩ := rest.tail.append
    have thenHere := rest.labels _ _ mem_cons_self
    have elseHere := second.labels _ _ mem_cons_self
    have exit : K.Leads (thenBranch.declared ++ live) (ρ .next) :=
      next.mono (subset_append_right _ _)
    have exit' : K.Leads (elseBranch.declared ++ live) (ρ .next) :=
      next.mono (subset_append_right _ _)
    refine sound_mark_append (Test.fits_code keeps.addressed typed.1 inScope.1
      (leads_toLabels thenHere elseHere) test)
      rfl (sound_cons_label ?_ (sound_append.mpr
        ⟨thenBranch.sound_marks inScope.2.1 typed.2.1 keeps exit out first,
        sound_cons_label ?_ (elseBranch.sound_marks inScope.2.2 typed.2.2 keeps exit' out
          second.tail)⟩))
    · rw [thenHere, Action.first_marks]
      exact List.Subset.refl live
    · rw [elseHere, ← List.append_nil (Action.marks ..), Action.first_marks]
      exact List.Subset.refl live
  | .loop condition body, inScope, typed, keeps, s, ρ, next, _, covers, last => by
    simp only [Action.marks, Action.places] at covers ⊢
    obtain ⟨test, rest⟩ := covers.append
    have check := test.labels _ _ (mem_cons_of_mem _ mem_cons_self)
    have here := rest.labels _ _ mem_cons_self
    have lines :=
      Test.fits_code keeps.addressed typed.1 inScope.1 (leads_orNext here next) test.tail.tail
    -- The end of the body and `continue` lead back to the check, `break` leads on.
    refine sound_mark_append (forall_mem_cons.mpr ⟨(leads_label check).fits_jump,
      forall_mem_cons.mpr ⟨fun _ mem => check.symm ▸ mem, lines⟩⟩) rfl (sound_cons_label ?_
        (body.sound_marks (ρ := fun w => (backTo s.label w).target ρ) inScope.2 typed.2 keeps
          ((leads_label check).mono (subset_append_right _ _))
            (fun _ => ⟨next, leads_label check⟩) rest.tail))
    rw [here, ← List.append_nil (Action.marks ..), Action.first_marks]
    exact List.Subset.refl live
  | .break, inScope, _, _, _, ρ, _, out, _, last => ⟨(out inScope).1.fits_jump, trivial⟩
  | .continue, inScope, _, _, _, ρ, _, out, _, last => ⟨(out inScope).2.fits_jump, trivial⟩
  | .return none, _, _, _, _, _, _, _, _, _ => ⟨trivial, trivial⟩
  | .return (some value), inScope, converts, keeps, s, ρ, _, _, covers, last => by
    have ⟨source, hv, _⟩ := converts
    simp only [Action.marks, Action.code, map_append, map_instr_lift, mark_append] at covers ⊢
    have lines := Term.fits_code keeps.addressed hv inScope.2 (s := s)
      (covers.mono (subset_append_left _ _) (List.Subset.refl _))
    have bounded : K.Bounded K.frame.returnType (.register (value.code K.frame s).place) :=
      .inr ⟨value, covers.places (value.mem_places s), converts⟩
    exact sound_mark_append lines rfl ⟨bounded, trivial⟩
  | .block .nil, _, _, _, _, ρ, next, _, _, last => ⟨next.fits_jump, trivial⟩
  | .block (.cons first rest), inScope, typed, keeps, s, ρ, next, out, covers, last =>
    Actions.sound_marks (.cons first rest) inScope typed keeps next out covers

theorem Actions.sound_marks {inLoop : Bool} {live : Live} :
    ∀ (as : Actions), as.Scoped K.frame limit Q inLoop live →
      as.WellTyped K.types K.frame.returnType →
      K.Keeps live → ∀ {s : NameSupply} {ρ : Leave → Target}, K.Leads live (ρ .next) →
      (inLoop = true → K.Loops live ρ) → K.Covers (as.marks K.frame s ρ live)
        (as.places K.frame s) →
      ∀ {last : Live}, K.Sound (as.marks K.frame s ρ live) last
  | .nil, _, _, _, _, _, _, _, _, _ => trivial
  | .cons first .nil, inScope, typed, keeps, s, ρ, next, out, covers, last =>
    first.sound_marks inScope.1 typed.1 keeps (next.mono (subset_append_right _ live)) out covers
  | .cons first (.cons second rest), inScope, typed, keeps, s, ρ, next, out, covers, last => by
    have wider : live ⊆ first.declared ++ live := subset_append_right _ live
    simp only [Actions.marks, Actions.places] at covers ⊢
    obtain ⟨before, behind⟩ := covers.append
    have here := behind.labels _ _ mem_cons_self
    refine sound_append.mpr ⟨first.sound_marks
        (ρ := fun w => (Exit.connect Leave.next (first.code K.frame s).names.label w).target ρ)
          inScope.1 typed.1 keeps
        (leads_label here) (fun inside => ⟨(out inside).1, (out inside).2⟩) before,
      sound_cons_label ?_ (Actions.sound_marks (.cons second rest) inScope.2 typed.2
        (first.keeps_declared inScope.1 keeps before) (next.mono wider)
        (fun inside => ⟨(out inside).1.mono wider, (out inside).2.mono wider⟩) behind.tail)⟩
    rw [here, ← List.append_nil (Actions.marks ..), Actions.first_marks _ Actions.noConfusion]
    exact List.Subset.refl _

end

end Sound

/-! ### Functions -/

namespace Routine

/-- The variables that are in scope behind a label of the function. -/
def scopes (f : Routine) (s : NameSupply) (l : Label) : Live :=
  (((f.marks s).find? fun m => m.2 = .label l).map Prod.fst).getD []

/-- The function with the types of its names. -/
def survey (f : Routine) (s : NameSupply) (Γ : Types) : Survey where
  types := Γ
  frame := f.frame
  places := f.places s
  lines := (f.code s).steps.map (instr noExits)
  scopes := f.scopes s

variable {f : Routine} {s : NameSupply} {Γ : Types} {limit : Nat} {Q : Signatures}

theorem nodup_labels (f : Routine) (s : NameSupply) :
    (labelsOf ((f.code s).steps.map (instr noExits))).Nodup := by
  rw [(Reading.labels_of_read (f.read_code s)).2]
  exact List.Pairwise.map _ (fun m n ne eq => ne (Label.numbered.inj eq)) nodup_range'

theorem covers_marks (f : Routine) (s : NameSupply) (Γ : Types) :
    (f.survey s Γ).Covers (f.marks s) (f.places s) := by
  refine ⟨fun live l mem => ?_, fun m mem => ?_, List.Subset.refl _⟩
  · have distinct : ((f.marks s).filterMap fun m => m.2.label?).Nodup := by
      have labels := f.nodup_labels s
      rw [← f.map_marks s, labelsOf, filterMap_map] at labels
      exact labels
    show (((f.marks s).find? fun m => m.2 = .label l).map Prod.fst).getD [] = live
    cases found : (f.marks s).find? fun m => m.2 = .label l with
    | none => simpa using find?_eq_none.mp found _ mem
    | some m =>
      have label : m.2 = .label l := by simpa using find?_some found
      have same := eq_of_nodup_filterMap distinct (mem_of_find?_eq_some found) mem
        (congrArg Instr.label? label) rfl
      rw [same]
      rfl
  · show m.2 ∈ (f.code s).steps.map (instr noExits)
    rw [← f.map_marks s]
    exact mem_map_of_mem mem

theorem fits_spillLines {K : Survey} {slots : List (Option Nat)}
    (own : ∀ (i slot : Nat), slots[i]? = some (some slot) →
      K.frame.slots[i]? = some (some (.temp slot)))
    (types : ∀ i < slots.length, ∃ type, K.types.parameters[i]? = some type) :
    ∀ i ∈ spillLines 0 slots, K.Fits [] [] i := by
  intro i mem
  obtain ⟨k, slot, found, rfl | rfl⟩ := mem_spillLines.mp mem
  · exact List.Subset.refl []
  · obtain ⟨type, typed⟩ := types k (List.getElem?_eq_some_iff.mp found).1
    rw [Nat.zero_add]
    exact ⟨.parameter k, List.Subset.refl [], own k slot found, type, typed, .inl ⟨k, rfl, typed⟩⟩

theorem first_marks (f : Routine) (s : NameSupply) : first [] (f.marks s) = [] := by
  unfold marks
  dsimp only
  rw [append_assoc]
  exact first_mark_append (Action.first_marks _) _

/-- The marks of a function are sound. -/
theorem sound_marks (inScope : f.Scoped limit Q) (typed : f.WellTyped Γ) :
    (f.survey s Γ).Sound (f.marks s) [] := by
  have covers := f.covers_marks s Γ
  have done : (f.survey s Γ).scopes (Action.code f.frame (.block f.body) s).names.label = [] :=
    covers.labels _ _ (mem_append_right _ mem_cons_self)
  have start : ∀ i ∈ f.frameLines ++ spillLines 0 f.slots, (f.survey s Γ).Fits [] [] i := by
    refine forall_mem_append.mpr ⟨?_, fits_spillLines (fun i slot found => ?_) fun i bound => ?_⟩
    · unfold frameLines
      split
      · exact forall_mem_singleton.mpr (List.Subset.refl [])
      · exact forall_mem_nil _
    · exact (f.getElem?_slots i).trans (congrArg _ found)
    · show ∃ type, Γ.parameters[i]? = some type
      rw [typed.parameters]
      exact ⟨_, getElem?_eq_getElem (inScope.slots ▸ bound)⟩
  have finish : ∀ i ∈ f.endLines, (f.survey s Γ).Fits [] [] i := by
    unfold endLines
    refine forall_mem_append.mpr ⟨?_, forall_mem_singleton.mpr ?_⟩
    · split
      · exact forall_mem_singleton.mpr ⟨List.Subset.refl [], .inr (.inl rfl)⟩
      · exact forall_mem_nil _
    · split
      · trivial
      · rfl
  have body (last : Live) : (f.survey s Γ).Sound (Action.marks f.frame (.block f.body) s
      (fun _ => some (Action.code f.frame (.block f.body) s).names.label) []) last :=
    Action.sound_marks (K := f.survey s Γ) (.block f.body) inScope.body typed.body
      ⟨forall_mem_nil _, forall_mem_nil _⟩
      (ρ := fun _ => some (Action.code f.frame (.block f.body) s).names.label) (leads_label done)
      (fun inside => Bool.noConfusion inside)
      (covers.mono (fun m mem => mem_append_left _ (mem_append_right _ mem)) (List.Subset.refl _))
  unfold marks
  dsimp only
  rw [append_assoc]
  refine sound_mark_append start (Action.first_marks _) (sound_append.mpr ⟨body _, ?_⟩)
  exact sound_mark (forall_mem_cons.mpr ⟨fun _ mem => done.symm ▸ mem, finish⟩)

end Routine

end Backpatch
