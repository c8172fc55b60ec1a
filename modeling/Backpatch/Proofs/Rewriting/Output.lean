import Backpatch.Proofs.Elaboration.Types
import Backpatch.Proofs.Output.Alike
import Backpatch.Proofs.Rewriting.Basic
import Backpatch.Proofs.Static.Agreement

/-!
# Negations and casts to the same type cost nothing

A rewritten program has the same output, byte for byte, under all options
(`Program.compile_rewritesTo`). A step of rewriting keeps every expression well typed, with its
type, and its core term is alike to the one before: a negation exchanges the exits of a test and a
cast to the same type writes nothing.
-/

namespace Backpatch

/-! ## Typed terms -/

/-- Typed terms of one kind and one type with the same code. -/
inductive Typed.Alike : Typed → Typed → Prop
  | value {type : Ty} {t u : Term} (h : t.Alike u) : Alike (.value type t) (.value type u)
  | truth {c d : Test} (h : c.Alike d) : Alike (.truth c) (.truth d)
  | void {name : String} {as bs : Arguments} (h : as.Alike bs) : Alike (.void name as)
    (.void name bs)

namespace Typed.Alike

variable {a a' a'' b b' b'' : Typed}

theorem refl (a : Typed) : a.Alike a := by
  cases a with
  | value => exact .value (.refl _)
  | truth => exact .truth (.refl _)
  | void => exact .void fun _ _ => rfl

theorem type (h : a.Alike b) : b.type = a.type := by cases h <;> rfl

theorem converts (h : a.Alike b) (type : Ty) :
    Typed.converts (some b) type = Typed.converts (some a) type :=
  congrArg (Ty.convertibleTo · type) h.type

theorem returnFits (h : a.Alike b) (returnType : Ty) :
    Typed.returnFits returnType (some b) = Typed.returnFits returnType (some a) :=
  congrArg (fun type : Ty => returnType != .void && type.convertibleTo returnType) h.type

theorem term (h : a.Alike b) : a.term.Alike b.term := by
  cases h with
  | value h => exact h
  | truth h => exact .truth h
  | void => exact .refl _

theorem test (h : a.Alike b) : a.test.Alike b.test := by
  cases h with
  | truth h => exact h
  | value | void => exact .refl _

theorem action (h : a.Alike b) : a.action.Alike b.action := by
  cases h with
  | value h => exact .drop h
  | truth h => exact .check h
  | void h => exact .run h _

theorem call {as bs : Arguments} (h : as.Alike bs) (returnType : Ty) (name : String) :
    (Typed.call returnType name as).Alike (.call returnType name bs) := by
  unfold Typed.call
  split
  · exact .void h
  · split
    · exact .truth (.call h name)
    · exact .value (.call h name _)

theorem cast (h : a.Alike b) (target : Ty) : (Typed.cast target a).Alike (.cast target b) := by
  unfold Typed.cast
  rw [h.type]
  split
  · exact .truth h.test.same
  · split
    · exact .value h.term.cut
    · exact .value h.term.same

theorem choice (h : a.Alike b) (h' : a'.Alike b') (h'' : a''.Alike b'') (type : Ty) :
    (Typed.choice type a a' a'').Alike (.choice type b b' b'') := by
  unfold Typed.choice
  split
  · exact .truth (.choice h.test h'.test h''.test)
  · exact .value (.choice h.test h'.term h''.term _)

/-- A cast to the type that the value has. -/
theorem cast_same (truth : a.type = .bool → a = .truth a.test) (notVoid : a.type ≠ .void) :
    (Typed.cast a.type a).Alike a := by
  unfold Typed.cast
  cases a with
  | value type t =>
    -- The value is no test, and it is not cut: its type is not both `int` and `byte`.
    have notBool : (Typed.value type t).type ≠ .bool := fun bool => by cases truth bool
    have notCut : ¬((Typed.value type t).type = .int ∧ (Typed.value type t).type = .byte) := by
      rintro ⟨int, byte⟩
      cases int.symm.trans byte
    rw [if_neg notBool, if_neg notCut]
    exact .value (.same_self t)
  | truth c => exact .truth (.same_self c)
  | void => exact absurd rfl notVoid

end Typed.Alike

variable {globals : List (String × Meaning)} {before : Declarations} {as bs : List Typed} {e : Env}
  {f : FunctionDef} {registers registers' : Nat}

theorem Typed.fit_congr (h : List.Forall₂ Alike as bs) (parameters : List Ty) :
    fit bs parameters = fit as parameters := by
  induction h generalizing parameters with
  | nil => rfl
  | cons first rest ih =>
    cases parameters with
    | nil => rfl
    | cons type types =>
      unfold fit
      rw [first.type, ih]

theorem Typed.arguments_alike (h : List.Forall₂ Alike as bs) (parameters : List Ty) :
    (Typed.arguments as parameters).Alike (Typed.arguments bs parameters) := by
  induction h generalizing parameters with
  | nil => exact fun _ _ => rfl
  | cons first rest ih =>
    cases parameters with
    | nil => exact fun _ _ => rfl
    | cons type types => exact .cons first.term (ih types) type.ir

/-! ## Expressions -/

namespace Expr

variable {e : Env} {x : Lexical} {a : Expr} {ta : Typed}

mutual

theorem Yields.digits {a : Expr} {ta : Typed} : Yields e a ta → Digits a.tokens
  | .int digit _ | .byte digit _ => digits_singleton.mpr digit
  | .bool | .string | .variable _ | .parameter _ => fun _ mem => absurd mem List.not_mem_nil
  | .call all _ _ => all.digits
  | .not operand _ | .cast operand _ => operand.digits
  | .and left right _ _ | .or left right _ _ | .arithmetic left right _ _ | .comparison left
      right _ _ =>
    digits_append.mpr ⟨left.digits, right.digits⟩
  | .conditional condition _ thenValue elseValue _ _ =>
    digits_append.mpr ⟨digits_append.mpr ⟨condition.digits, thenValue.digits⟩, elseValue.digits⟩

theorem YieldsAll.digits {as : List Expr} {ts : List Typed} :
    YieldsAll e as ts → Digits (tokensAll as)
  | .nil => fun _ mem => absurd mem List.not_mem_nil
  | .cons first rest => digits_append.mpr ⟨first.digits, rest.digits⟩

end

theorem Yields.type_eq (he : e.Shows x) (h : Yields e a ta) {type : Ty}
    (checked : a.check x = .ok type) : ta.type = type := by
  have agrees := a.elaborate_agrees he h.digits
  rw [h.elaborate, checked] at agrees
  exact agrees

theorem ne_void_of_cast {source target : Ty}
    (fits : ((source.isNumeric && target.isNumeric) || (source == target && !target.isSpecial))
      = true) :
    target ≠ .void := by
  rintro rfl
  revert fits
  cases source <;> decide

theorem rewritten_not_conditional {l l' : Location} {c b : Expr} (m n n' : Location)
    (h : Yields e (.not l (.conditional l' c a b)) ta) :
    ∃ tb, Yields e (.conditional m c (.not n a) (.not n' b)) tb ∧ ta.Alike tb := by
  cases h with
  | not h bool =>
    cases h with
    | conditional condition conditionBool thenValue elseValue valid notVoid =>
      rw [Typed.type_choice] at bool
      -- What is negated is a truth value, and so are both of the values that it is chosen from.
      obtain ⟨thenBool, elseBool⟩ := Ty.castUp_eq_bool bool
      rw [bool]
      have common : Ty.castUp .bool .bool ≠ .invalid ∧ Ty.castUp .bool .bool ≠ .void := by decide
      exact ⟨_, .conditional condition conditionBool (.not thenValue thenBool)
        (.not elseValue elseBool) common.1 common.2, .truth (.not_choice _ _ _)⟩

mutual

/-- A step of rewriting keeps an expression well typed. -/
theorem Rewrites.yields (he : e.Shows x) {a b : Expr} :
    Rewrites x a b → ∀ {ta : Typed}, Yields e a ta → ∃ tb, Yields e b tb ∧ ta.Alike tb
  | .notNot, _, h => by
    cases h with
    | not h _ =>
      cases h with
      | not operand bool =>
        refine ⟨_, operand, ?_⟩
        rw [operand.eq_truth bool]
        exact .truth (.not_not _)
  | .notAnd m n n', _, h => by
    cases h with
    | not h _ =>
      cases h with
      | and left right leftBool rightBool =>
        exact ⟨_, .or (.not left leftBool) (.not right rightBool) rfl rfl, .truth (.not_and _ _)⟩
  | .notOr m n n', _, h => by
    cases h with
    | not h _ =>
      cases h with
      | or left right leftBool rightBool =>
        exact ⟨_, .and (.not left leftBool) (.not right rightBool) rfl rfl, .truth (.not_or _ _)⟩
  | .notConditional m n n', _, h => rewritten_not_conditional m n n' h
  | .notBool m, _, h => by
    cases h with
    | not h _ =>
      cases h with
      | bool =>
        exact ⟨_, .bool, .truth (.not_constant _)⟩
  | .castSame same, _, h => by
    cases h with
    | cast operand fits =>
      refine ⟨_, operand, ?_⟩
      have type := operand.type_eq he same
      have notVoid := ne_void_of_cast fits
      rw [← type] at notVoid ⊢
      exact .cast_same operand.eq_truth notVoid
  | .refl, _, h => ⟨_, h, .refl _⟩
  | .call arguments, _, h => by
    cases h with
    | call all found fit =>
      obtain ⟨typed, all', alike⟩ := arguments.yields he all
      exact ⟨_, .call all' found ((Typed.fit_congr alike _).trans fit),
        .call (Typed.arguments_alike alike _) _ _⟩
  | .not operand, _, h => by
    cases h with
    | not h bool =>
      obtain ⟨tb, h', alike⟩ := operand.yields he h
      exact ⟨_, .not h' (alike.type.trans bool), .truth alike.test.not⟩
  | .and left right, _, h => by
    cases h with
    | and h₁ h₂ leftBool rightBool =>
      obtain ⟨_, h₁', alike₁⟩ := left.yields he h₁
      obtain ⟨_, h₂', alike₂⟩ := right.yields he h₂
      exact ⟨_, .and h₁' h₂' (alike₁.type.trans leftBool) (alike₂.type.trans rightBool),
        .truth (.and alike₁.test alike₂.test)⟩
  | .or left right, _, h => by
    cases h with
    | or h₁ h₂ leftBool rightBool =>
      obtain ⟨_, h₁', alike₁⟩ := left.yields he h₁
      obtain ⟨_, h₂', alike₂⟩ := right.yields he h₂
      exact ⟨_, .or h₁' h₂' (alike₁.type.trans leftBool) (alike₂.type.trans rightBool),
        .truth (.or alike₁.test alike₂.test)⟩
  | .arithmetic left right, _, h => by
    cases h with
    | arithmetic h₁ h₂ leftNumeric rightNumeric =>
      obtain ⟨_, h₁', alike₁⟩ := left.yields he h₁
      obtain ⟨_, h₂', alike₂⟩ := right.yields he h₂
      rw [← alike₁.type] at leftNumeric
      rw [← alike₂.type] at rightNumeric
      refine ⟨_, .arithmetic h₁' h₂' leftNumeric rightNumeric, ?_⟩
      rw [alike₁.type, alike₂.type]
      exact .value (.arithmetic alike₁.term alike₂.term _ _)
  | .comparison left right, _, h => by
    cases h with
    | comparison h₁ h₂ leftNumeric rightNumeric =>
      obtain ⟨_, h₁', alike₁⟩ := left.yields he h₁
      obtain ⟨_, h₂', alike₂⟩ := right.yields he h₂
      rw [← alike₁.type] at leftNumeric
      rw [← alike₂.type] at rightNumeric
      refine ⟨_, .comparison h₁' h₂' leftNumeric rightNumeric, ?_⟩
      rw [alike₁.type, alike₂.type]
      exact .truth (.compare alike₁.term alike₂.term _)
  | .cast operand, _, h => by
    cases h with
    | cast h fits =>
      obtain ⟨_, h', alike⟩ := operand.yields he h
      rw [← alike.type] at fits
      exact ⟨_, .cast h' fits, .cast alike _⟩
  | .conditional condition thenValue elseValue, _, h => by
    cases h with
    | conditional h bool h₁ h₂ valid notVoid =>
      obtain ⟨_, h', alike⟩ := condition.yields he h
      obtain ⟨_, h₁', alike₁⟩ := thenValue.yields he h₁
      obtain ⟨_, h₂', alike₂⟩ := elseValue.yields he h₂
      rw [← alike₁.type, ← alike₂.type] at valid notVoid ⊢
      exact ⟨_, .conditional h' (alike.type.trans bool) h₁' h₂' valid notVoid,
        .choice alike alike₁ alike₂ _⟩

theorem RewritesAll.yields (he : e.Shows x) {as bs : List Expr} :
    RewritesAll x as bs → ∀ {ts : List Typed}, YieldsAll e as ts →
      ∃ us, YieldsAll e bs us ∧ List.Forall₂ Typed.Alike ts us
  | .nil, _, .nil => ⟨_, .nil, .nil⟩
  | .cons first rest, _, .cons h hs => by
    obtain ⟨_, h', alike⟩ := first.yields he h
    obtain ⟨_, hs', alikes⟩ := rest.yields he hs
    exact ⟨_, .cons h' hs', .cons alike alikes⟩

end

end Expr

/-! ## Statements -/

theorem Stmt.Yields.shows {s : Stmt} {e' : Env} {x : Lexical} {layout layout' : Layout} {a : Action}
    (h : Stmt.Yields s e layout a e' layout') (he : e.Shows x) :
    e'.Shows (x.declare s.declared) := by
  cases h with
  | declaration => exact he.cons _ _ _
  | assignment | expression | when | either | loop | «break» | «continue» | «return» | block =>
    exact he

mutual

/-- A step of rewriting keeps a statement well typed, with the same names and the same layout after
it. -/
theorem Stmt.Rewrites.yields {x : Lexical} {s t : Stmt} :
    Stmt.Rewrites x s t → ∀ {e e' : Env} {layout layout' : Layout} {a : Action}, e.Shows x →
      Stmt.Yields s e layout a e' layout' → ∃ b, Stmt.Yields t e layout b e' layout' ∧ a.Alike b
  | .refl, _, _, _, _, _, _, h => ⟨_, h, .refl _⟩
  | .declaration value, _, _, _, _, _, he, .declaration (.some h) storable converts free => by
    obtain ⟨_, h', alike⟩ := value.yields he h
    exact ⟨_, .declaration (.some h') storable ((alike.converts _).trans converts) free,
      .declare alike.term _ _⟩
  | .assignment value, _, _, _, _, _, he, .assignment h resolved converts => by
    obtain ⟨_, h', alike⟩ := value.yields he h
    rw [← alike.type] at converts
    exact ⟨_, .assignment h' resolved converts, .assign alike.term _⟩
  | .expression value, _, _, _, _, _, he, .expression h => by
    obtain ⟨_, h', alike⟩ := value.yields he h
    exact ⟨_, .expression h', alike.action⟩
  | .when condition body, _, _, _, _, _, he, .when h bool hs => by
    obtain ⟨_, h', alike⟩ := condition.yields he h
    obtain ⟨_, hs', same⟩ := body.yields (he.inner false) hs
    exact ⟨_, .when h' (alike.type.trans bool) hs', .when alike.test same⟩
  | .either condition thenBranch elseBranch, _, _, _, _, _, he, .either h bool hs hs₁ => by
    obtain ⟨_, h', alike⟩ := condition.yields he h
    obtain ⟨_, hs', same⟩ := thenBranch.yields (he.inner false) hs
    obtain ⟨_, hs₁', same₁⟩ := elseBranch.yields (he.inner false) hs₁
    exact ⟨_, .either h' (alike.type.trans bool) hs' hs₁', .either alike.test same same₁⟩
  | .loop condition body, _, _, _, _, _, he, .loop h bool hs => by
    obtain ⟨_, h', alike⟩ := condition.yields he h
    obtain ⟨_, hs', same⟩ := body.yields (he.inner true) hs
    exact ⟨_, .loop h' (alike.type.trans bool) hs', .loop alike.test same⟩
  | .return value, _, _, _, _, _, he, .return (.some h) fits => by
    obtain ⟨_, h', alike⟩ := value.yields he h
    exact ⟨_, .return (.some h') ((alike.returnFits _).trans fits), .return alike.term⟩
  | .block body, _, _, _, _, _, he, .block hs => by
    obtain ⟨_, hs', same⟩ := body.yields (he.inner false) hs
    exact ⟨_, .block hs', .block same⟩

theorem Stmt.RewritesAll.yields {x : Lexical} {ss ts : List Stmt} :
    Stmt.RewritesAll x ss ts → ∀ {e e' : Env} {layout layout' : Layout} {as : Actions}, e.Shows x →
      Stmt.YieldsAll ss e layout as e' layout' →
        ∃ bs, Stmt.YieldsAll ts e layout bs e' layout' ∧ as.Alike bs
  | .nil, _, _, _, _, _, _, .nil => ⟨_, .nil, .nil⟩
  | .cons first rest, _, _, _, _, _, he, .cons h hs => by
    obtain ⟨_, h', same⟩ := first.yields he h
    obtain ⟨_, hs', same'⟩ := rest.yields (h.shows he) hs
    exact ⟨_, .cons h' hs', .cons same same'⟩

end

/-! ## Programs -/

/-- The names that a body may use. -/
theorem FunctionDef.shows_inside (h : GlobalsShow globals before)
    (head : elaborateHead f.name (.ofName f.returnType) (f.parameters.map Parameter.formal)
      f.location globals = .ok e) : e.Shows (f.inside before) := by
  obtain ⟨-, -, -, bound⟩ := of_elaborateHead_eq_ok head
  let m : Meaning :=
    .function (.ofName f.returnType) ((f.parameters.map Parameter.formal).map Builder.Formal.type)
  have globals' : GlobalsShow ((f.name, m) :: globals) (f.declaration :: before) :=
    f.declaration_eq ▸ h.cons f.name m
  have agrees := bindFormals_agrees f.parameters 0 (globals'.shows (.ofName f.returnType))
  rw [bound] at agrees
  revert agrees
  cases Parameter.checkNames f.parameters [] with
  | error => exact fun h => h.elim
  | ok =>
    intro shows
    have shows : e.Shows _ := shows
    unfold Lexical.declare at shows
    rwa [List.append_nil] at shows

/-- A step of rewriting in a body. -/
theorem FunctionDef.elaborate_rewritten {body : List Stmt} {globals' : List (String × Meaning)}
    {r : Routine}
    (h : GlobalsShow globals before) (step : Stmt.RewritesAll (f.inside before) f.body body)
    (elaborated : f.elaborate globals registers = .ok (r, globals', registers')) :
    GlobalsShow globals' (f.declaration :: before) ∧
      ∃ r', { f with body := body }.elaborate globals registers = .ok (r', globals', registers') ∧
        r.Alike r' := by
  unfold FunctionDef.elaborate at elaborated
  obtain ⟨e, head, elaborated⟩ := of_bind_eq_ok elaborated
  obtain ⟨⟨actions, e', layout⟩, elaboratedBody, elaborated⟩ := of_bind_eq_ok elaborated
  obtain ⟨actions', yields, alike⟩ :=
    step.yields (shows_inside h head) (Stmt.yieldsAll elaboratedBody)
  cases elaborated
  refine ⟨f.declaration_eq ▸ h.cons f.name _, ?_⟩
  unfold FunctionDef.elaborate
  dsimp only
  rw [ok_bind head, ok_bind yields.elaborate]
  exact ⟨_, rfl, rfl, alike⟩

theorem FunctionDef.RewritesAll.elaborateAll {fs gs : List FunctionDef}
    (step : FunctionDef.RewritesAll before fs gs) {last : List (String × Meaning)}
    {rs : List Routine} (h : GlobalsShow globals before)
    (elaborated : FunctionDef.elaborateAll fs globals registers = .ok (rs, last, registers')) :
    ∃ rs', FunctionDef.elaborateAll gs globals registers = .ok (rs', last, registers') ∧
      List.Forall₂ Routine.Alike rs rs' := by
  induction step generalizing globals registers rs with
  | nil =>
    cases elaborated
    exact ⟨[], rfl, .nil⟩
  | cons first rest ih =>
    unfold FunctionDef.elaborateAll at elaborated
    obtain ⟨⟨r, globals', registers₁⟩, elaboratedFirst, elaborated⟩ := of_bind_eq_ok elaborated
    obtain ⟨⟨rs₁, last', registers₂⟩, elaboratedRest, elaborated⟩ := of_bind_eq_ok elaborated
    obtain ⟨shows, r', first', alike⟩ := FunctionDef.elaborate_rewritten h first elaboratedFirst
    cases elaborated
    obtain ⟨rs', rest', alikes⟩ := ih shows elaboratedRest
    unfold FunctionDef.elaborateAll
    rw [ok_bind first']
    dsimp only
    rw [ok_bind rest']
    exact ⟨_, rfl, .cons alike alikes⟩

/-- A step of rewriting in an accepted program. -/
theorem Program.Rewrites.compile_eq {p q : Program} (step : p.Rewrites q) {options : Options}
    {text : String} (ok : p.compile options = .ok text) : q.compile options = .ok text := by
  cases elaborated : p.elaborate with
  | error failure =>
    rw [compile_of_elaborate_error elaborated] at ok
    cases ok
  | ok result =>
    obtain ⟨fs, registers⟩ := result
    have elaborated' := elaborated
    unfold Program.elaborate at elaborated'
    obtain ⟨⟨rs, last, n⟩, all, elaborated'⟩ := of_bind_eq_ok elaborated'
    obtain ⟨main, elaborated'⟩ := of_require_eq_ok elaborated'
    cases elaborated'
    -- The heads of the functions are the same, so the entry point is found again.
    obtain ⟨rs', all', alike⟩ := FunctionDef.RewritesAll.elaborateAll step globalsShow_runtime all
    have rewritten : q.elaborate = .ok (rs', registers) := by
      unfold Program.elaborate
      rw [ok_bind all']
      dsimp only
      rw [require_bind main]
      rfl
    rw [← compile_alike elaborated rewritten alike, ok]

/-- However an accepted program is rewritten, its output stays the same. -/
theorem Program.compile_rewritesTo {p q : Program} (steps : p.RewritesTo q) {options : Options}
    {text : String} (ok : p.compile options = .ok text) : q.compile options = .ok text := by
  induction steps with
  | refl => exact ok
  | tail _ step ih => exact step.compile_eq ih

/-- A main function with the given value of a variable and the given condition. -/
def Program.asking (value condition : Expr) : Program :=
  let here := Location.nowhere
  { functions :=
      [{ name := "main", returnType := "void"
         body :=
           [.declaration here "bool" "quiet" (some value),
            .conditional here condition
              (.expression here (.call here "print" [.literal here (.string "hello")])) none] }] }

/-- A cast that changes nothing is left out of the value and then its negation, and a negation is
pushed into the condition and then meets another one. -/
theorem Program.asking_rewritesTo :
    let here := Location.nowhere
    let quiet : Expr := .identifier here "quiet"
    let yes : Expr := .literal here (.bool true)
    let before :=
      asking (.cast here "bool" (.not here yes)) (.not here (.and here quiet (.not here quiet)))
    let after := asking (.literal here (.bool false)) (.or here (.not here quiet) quiet)
    before.RewritesTo after ∧ ∃ text, before.compile {} = .ok text ∧
      after.compile {} = .ok text := by
  intro here quiet yes before after
  let between := asking (.not here yes) (.or here (.not here quiet) (.not here (.not here quiet)))
  have first : before.Rewrites between :=
    .cons (.cons (.declaration (.castSame rfl)) (.cons (.when (.notAnd here here here) .refl) .nil))
      .nil
  have second : between.Rewrites after :=
    .cons (.cons (.declaration (.notBool here)) (.cons (.when (.or .refl .notNot) .refl) .nil)) .nil
  have steps : before.RewritesTo after := .tail (.single first) second
  obtain ⟨text, ok⟩ :=
    compiles_of_accepted (exists_of_accepted (p := before) (by decide +kernel)) (by decide)
  exact ⟨steps, text, ok, compile_rewritesTo steps ok⟩

end Backpatch
