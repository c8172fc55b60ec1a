import Backpatch.Proofs.Json.Reading

/-!
# Programs, locations and options read back

From every JSON text of a program the same program is read, as long as its brackets nest no deeper
than the reader allows, and so it is with locations and options.
-/

namespace Backpatch

open List Json

/-! ## Texts -/

@[simp] theorem Json.isPlain_ofText (text : String) : (ofText text).isPlain = true := by
  rw [ofText, isPlain]
  rfl

attribute [local simp] isPlain Expr.toJson Stmt.toJson

@[simp] theorem Json.isPlain_ofVariant (name : String) (payload : Json) :
    (ofVariant name payload).isPlain = payload.isPlain := by
  simp [ofVariant, isPlainFields]

@[simp] theorem Json.isPlain_ofFields (fields : List (String × Json)) :
    (ofFields fields).isPlain = fields.all fun field => field.2.isPlain := by
  rw [ofFields, isPlain]
  induction fields with
  | nil => rfl
  | cons field fields ih => simp [isPlainFields, ih]

@[simp] theorem Location.isPlain_toJson (l : Location) : l.toJson.isPlain = true := by
  simp [Location.toJson]

@[simp] theorem Location.isPlain_withKind (l : Location) (kind : Json) :
    (l.withKind kind).isPlain = kind.isPlain := by
  simp [Location.withKind]

theorem Literal.isPlain_toJson (value : Literal) : value.toJson.isPlain = true := by
  cases value <;> simp [Literal.toJson]

theorem Json.isPlainItems_eq (items : List Json) : isPlainItems items = items.all isPlain := by
  induction items with
  | nil => rfl
  | cons item items ih => rw [isPlainItems, ih, all_cons]

mutual

theorem Expr.isPlain_toJson : ∀ e : Expr, e.toJson.isPlain = true
  | .literal _ value => by simp [value.isPlain_toJson]
  | .identifier .. => by simp
  | .call _ _ arguments => by simp [Expr.isPlainItems_listToJson arguments]
  | .not _ operand | .cast _ _ operand => by simp [operand.isPlain_toJson]
  | .and _ left right | .or _ left right | .arithmetic _ _ left right | .comparison _ _
      left right => by
    simp [left.isPlain_toJson, right.isPlain_toJson]
  | .conditional _ condition thenValue elseValue => by
    simp [condition.isPlain_toJson, thenValue.isPlain_toJson, elseValue.isPlain_toJson]

theorem Expr.isPlainItems_listToJson : ∀ es : List Expr, isPlainItems (Expr.listToJson es) = true
  | [] => by rw [Expr.listToJson, isPlainItems]
  | e :: es => by
    rw [Expr.listToJson, isPlainItems, e.isPlain_toJson, Expr.isPlainItems_listToJson es,
      Bool.and_self]

end

theorem Expr.isPlain_optionToJson (value : Option Expr) :
    (Expr.optionToJson value).isPlain = true := by
  cases value with
  | none => simp [Expr.optionToJson]
  | some e => exact e.isPlain_toJson

mutual

theorem Stmt.isPlain_toJson : ∀ s : Stmt, s.toJson.isPlain = true
  | .declaration _ _ _ initializer => by simp [Expr.isPlain_optionToJson initializer]
  | .assignment _ _ value | .expression _ value => by simp [value.isPlain_toJson]
  | .conditional _ condition thenBranch elseBranch => by
    simp [condition.isPlain_toJson, thenBranch.isPlain_toJson, Stmt.isPlain_optionToJson elseBranch]
  | .loop _ condition body => by simp [condition.isPlain_toJson, body.isPlain_toJson]
  | .break _ | .continue _ => by simp
  | .return _ value => by simp [Expr.isPlain_optionToJson value]
  | .block _ body => by simp [Stmt.isPlainItems_listToJson body]

theorem Stmt.isPlain_optionToJson : ∀ s : Option Stmt, (Stmt.optionToJson s).isPlain = true
  | none => by rw [Stmt.optionToJson, isPlain]
  | some s => by rw [Stmt.optionToJson, s.isPlain_toJson]

theorem Stmt.isPlainItems_listToJson : ∀ ss : List Stmt, isPlainItems (Stmt.listToJson ss) = true
  | [] => by rw [Stmt.listToJson, isPlainItems]
  | s :: ss => by
    rw [Stmt.listToJson, isPlainItems, s.isPlain_toJson, Stmt.isPlainItems_listToJson ss,
      Bool.and_self]

end

theorem FunctionDef.isPlain_toJson (f : FunctionDef) : f.toJson.isPlain = true := by
  have parameters : isPlainItems (f.parameters.map Parameter.toJson) = true := by
    simp [isPlainItems_eq, Parameter.toJson]
  simp [FunctionDef.toJson, parameters, Stmt.isPlainItems_listToJson f.body]

theorem Program.isPlain_toJson (p : Program) : p.toJson.isPlain = true := by
  have functions : isPlainItems (p.functions.map FunctionDef.toJson) = true := by
    simp [isPlainItems_eq, FunctionDef.isPlain_toJson]
  simp [Program.toJson, functions]

/-! ## Reading back -/

/-- What is written for a value is read back, if the reader may open as many brackets as it
needs. -/
structure ReadsBack {α : Type} (write : α → Json) (read : Nat → Json → Option α) : Prop where
  plain : ∀ a, (write a).isPlain = true
  back : ∀ a room, (write a).depth ≤ room → read room (write a) = some a

namespace ReadsBack

variable {α : Type} {write : α → Json} {read : Nat → Json → Option α}

theorem parse (h : ReadsBack write read) {a : α} (deep : (write a).depth ≤ maxDepth) {text : String}
    (spells : Spells text (write a)) : (Json.parse? text).bind (read maxDepth) = some a := by
  rw [parse?_of_spells spells]
  exact h.back a maxDepth deep

/-- A text is the text of one value only, however deep that is. -/
theorem injective (h : ReadsBack write read) : Function.Injective fun a => (write a).render := by
  intro a b same
  have parsed := parse?_of_spells (spells_render (h.plain a))
  rw [show (write a).render = (write b).render from same,
    parse?_of_spells (spells_render (h.plain b))] at parsed
  have json : write b = write a := Option.some.inj parsed
  -- With as much room as both need, both are read from the one value.
  have backA := h.back a (write a).depth (Nat.le_refl _)
  have backB := h.back b (write a).depth (Nat.le_of_eq (congrArg Json.depth json))
  rw [json] at backB
  exact Option.some.inj (backA.symm.trans backB)

end ReadsBack

theorem Program.readsBack : ReadsBack Program.toJson Program.ofJson? :=
  ⟨Program.isPlain_toJson, fun p _ deep => p.ofJson?_of_shown (shown_self _ deep)⟩

theorem Location.readsBack : ReadsBack Location.toJson Location.ofJson? :=
  ⟨Location.isPlain_toJson, fun l _ deep => l.ofJson?_of_shown (shown_self _ deep)⟩

theorem Options.readsBack : ReadsBack Options.toJson Options.ofJson? :=
  ⟨fun options => by simp [Options.toJson], fun options _ deep =>
    options.ofJson?_of_shown (shown_self _ deep)⟩

theorem Location.depth_toJson (l : Location) : l.toJson.depth ≤ maxDepth := by
  simp [Location.toJson, ofFields, depth, depthFields, maxDepth]

theorem Options.depth_toJson (options : Options) : options.toJson.depth ≤ maxDepth := by
  simp [Options.toJson, ofFields, depth, depthFields, maxDepth]

/-- Programs that do not nest too deep, locations and options are read back from what is written for
them and from every other JSON text of the same value, and no two of them are written alike. -/
theorem Json.read_back :
    (∀ p : Program, p.toJson.depth ≤ maxDepth → Program.parse? p.render = some p ∧
      ∀ text, Spells text p.toJson → Program.parse? text = some p) ∧
    (∀ l : Location, Location.parse? l.render = some l ∧
      ∀ text, Spells text l.toJson → Location.parse? text = some l) ∧
    (∀ options : Options, Options.parse? options.render = some options ∧
      ∀ text, Spells text options.toJson → Options.parse? text = some options) ∧
    Function.Injective Program.render ∧ Function.Injective Location.render ∧
      Function.Injective Options.render := by
  refine ⟨fun p deep => ?_, fun l => ?_, fun options => ?_, Program.readsBack.injective,
    Location.readsBack.injective, Options.readsBack.injective⟩
  · have read : ∀ text, Spells text p.toJson → Program.parse? text = some p :=
      fun _ => Program.readsBack.parse deep
    exact ⟨read _ (spells_render p.isPlain_toJson), read⟩
  · have read : ∀ text, Spells text l.toJson → Location.parse? text = some l :=
      fun _ => Location.readsBack.parse l.depth_toJson
    exact ⟨read _ (spells_render l.isPlain_toJson), read⟩
  · have read : ∀ text, Spells text options.toJson → Options.parse? text = some options :=
      fun _ => Options.readsBack.parse options.depth_toJson
    exact ⟨read _ (spells_render (Options.readsBack.plain options)), read⟩

/-- A main function with one negation after the other. -/
def Program.negating (n : Nat) : Program :=
  let here := Location.nowhere
  { functions :=
      [{ name := "main", returnType := "void"
         body := [.expression here (n.repeat (Expr.not here) (.literal here (.bool true)))] }] }

/-- A program that nests as deep as the reader allows. -/
theorem Program.negating_read_back :
    (negating 59).toJson.depth = maxDepth ∧ Program.parse? (negating 59).render
      = some (negating 59) := by
  have depth : (negating 59).toJson.depth = maxDepth := by decide +kernel
  exact ⟨depth, (Json.read_back.1 (negating 59) (Nat.le_of_eq depth)).1⟩

end Backpatch
