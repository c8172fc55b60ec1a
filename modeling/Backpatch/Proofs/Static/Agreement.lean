import Backpatch.Proofs.Countdown
import Backpatch.Proofs.Elaboration.Program
import Backpatch.Proofs.Static.Checker

/-!
# The checker and the analysis

For a program whose numbers are written with digits the analysis gives exactly the result of the
checker: it accepts the same programs, and refuses the others for the same reason
(`Program.analyze_check`). The checker is compared with the elaboration, which the analysis follows:
both hand names down, but the elaboration also gives them registers and places in the frame.
-/

namespace Backpatch

open List

/-! ## Plans and checks -/

section Agrees

variable {α β γ δ : Type} {R : α → β → Prop} {S : γ → δ → Prop}

/-- The elaboration succeeds where the check does, with results that fit, and fails with the same
error. -/
def Agrees (R : α → β → Prop) : Except Failure α → Except SemanticError β → Prop
  | .ok a, .ok b => R a b
  | .error failure, .error e => failure = .semantic e
  | _, _ => False

variable {plan : Except Failure α} {holds : Bool} {e : SemanticError}
  {next : Unit → Except Failure γ}

theorem Agrees.bind {check : Except SemanticError β} {next : α → Except Failure γ}
    {rest : β → Except SemanticError δ} (h : Agrees R plan check)
    (hrest : ∀ a b, plan = .ok a → R a b → Agrees S (next a) (rest b)) :
    Agrees S (plan >>= next) (check >>= rest) := by
  cases plan with
  | ok a =>
    cases check with
    | ok b => exact hrest a b rfl h
    | error e => exact h.elim
  | error failure =>
    cases check with
    | ok b => exact h.elim
    | error e => exact h

theorem Agrees.require : Agrees (fun _ _ => holds = true) (require holds e) (expect holds e) := by
  cases holds with
  | true | false => exact rfl

/-- One rule on both sides. -/
theorem Agrees.check {rest : Unit → Except SemanticError δ}
    (h : holds = true → Agrees S (next ()) (rest ())) :
    Agrees S (Backpatch.require holds e >>= next) (expect holds e >>= rest) :=
  Agrees.require.bind fun _ _ _ holds => h holds

theorem require_and {a b : Bool} :
    (Backpatch.require a e >>= fun _ => Backpatch.require b e >>= next)
      = Backpatch.require (a && b) e >>= next := by
  cases a <;> rfl

theorem Agrees.imp {check : Except SemanticError β} {R' : α → β → Prop} (h : Agrees R plan check)
    (imp : ∀ a b, R a b → R' a b) : Agrees R' plan check := by
  cases plan <;> cases check
  · exact h
  · exact h.elim
  · exact h.elim
  · exact imp _ _ h

end Agrees

/-! ## Names -/

/-- What the checker knows of a name. -/
def Meaning.entity : Meaning → Entity
  | «variable» type _ _ | parameter type _ => .variable type
  | function returnType parameters => .function returnType parameters

/-- The same names can be used. -/
structure Env.Shows (e : Env) (x : Lexical) : Prop where
  find : ∀ name, x.find? name = (e.get? name).map Meaning.entity
  declares : ∀ name, (x.scope.lookup name).isSome = e.declares name
  inLoop : x.inLoop = e.inLoop
  returnType : x.returnType = e.returnType

namespace Env.Shows

variable {e : Env} {x : Lexical}

theorem inner (h : e.Shows x) (isLoop : Bool) : (e.inner isLoop).Shows (x.enter isLoop) where
  find := h.find
  declares _ := rfl
  inLoop := congrArg (· || isLoop) h.inLoop
  returnType := h.returnType

/-- A name is declared in the innermost scope. -/
theorem cons (h : e.Shows x) (name : String) (m : Meaning) (nextSlot : Nat) :
    Env.Shows { e with here := (name, m) :: e.here, nextSlot := nextSlot }
      (x.declare [(name, m.entity)]) where
  find other := by
    have before := h.find other
    unfold Lexical.find? Env.get? at before ⊢
    unfold Lexical.declare
    rw [findSome?_cons] at before ⊢
    simp only [cons_append, nil_append, lookup_cons]
    cases other == name with
    | true => rfl
    | false => exact before
  declares other := by
    have before := h.declares other
    unfold Lexical.declare Env.declares at *
    simp only [cons_append, nil_append, lookup_cons]
    cases other == name with
    | true => rfl
    | false => exact before
  inLoop := h.inLoop
  returnType := h.returnType

theorem resolve (h : e.Shows x) (name : String) (l : Location) :
    Agrees (fun r type => r.2 = type) (e.resolve name l) (x.variableType name l) := by
  unfold Env.resolve Lexical.variableType
  rw [h.find]
  cases e.get? name with
  | none => exact rfl
  | some m => cases m <;> exact rfl

end Env.Shows

/-! ## Expressions -/

/-- The tokens are non-empty sequences of digits. -/
def Digits (tokens : List String) : Prop := ∀ token ∈ tokens, Decimal.isDigits token.toList = true

@[simp] theorem digits_append {xs ys : List String} : Digits (xs ++ ys) ↔ Digits xs ∧ Digits ys :=
  forall_mem_append

variable {token name : String} {globals last : List (String × Meaning)} {before : Declarations}
  {registers registers' : Nat} {fs : List FunctionDef} {routines : List Routine}

@[simp] theorem digits_singleton : Digits [token] ↔ Decimal.isDigits token.toList = true :=
  forall_mem_singleton

theorem Typed.fit_eq (arguments : List Typed) (parameters : List Ty) :
    Typed.fit arguments parameters = argumentsFit (arguments.map Typed.type) parameters := by
  induction arguments generalizing parameters with
  | nil => cases parameters <;> rfl
  | cons argument arguments ih =>
    cases parameters with
    | nil => rfl
    | cons type types =>
      unfold Typed.fit
      rw [ih]
      simp [argumentsFit, Bool.and_left_comm]

/-- The expression has the type that the check finds. -/
def HasType (typed : Typed) (type : Ty) : Prop := typed.type = type

theorem elaborateNumber_agrees (h : Decimal.isDigits token.toList = true) (type : Ty)
    (largest : Nat) (l : Location) : Agrees (fun _ _ => True) (elaborateNumber type token largest l)
      (expect (Decimal.value token.toList ≤ largest) (.literalOutOfRange type token l)) := by
  unfold elaborateNumber
  rw [if_pos h]
  cases decide (Decimal.value token.toList ≤ largest) with
  | true => exact trivial
  | false => exact rfl

theorem Literal.elaborate_agrees (l : Location) (value : Literal)
    (digits : Digits (Expr.literal l value).tokens) :
    Agrees HasType (value.elaborate l) (value.check l) := by
  cases value with
  | int token | byte token =>
    exact (elaborateNumber_agrees (digits_singleton.mp digits) _ _ _).bind fun _ _ _ _ => rfl
  | bool value | string text => exact rfl

section Expressions

variable {e : Env} {x : Lexical}

mutual

theorem Expr.elaborate_agrees (h : e.Shows x) : ∀ (s : Expr), Digits s.tokens →
    Agrees HasType (s.elaborate e) (s.check x)
  | .literal l value, digits => by
    unfold Expr.elaborate Expr.check
    exact value.elaborate_agrees l digits
  | .identifier l name, _ => by
    unfold Expr.elaborate Expr.check
    rw [← bind_pure (x.variableType name l)]
    refine (h.resolve name l).bind ?_
    rintro ⟨place, type⟩ _ _ rfl
    exact Typed.type_read type place
  | .call l name arguments, digits => by
    unfold Expr.elaborate Expr.check
    refine (Expr.elaborateAll_agrees h arguments digits).bind ?_
    rintro typed types _ rfl
    unfold Lexical.signature
    rw [h.find]
    cases e.get? name with
    | none => exact rfl
    | some m =>
      cases m with
      | «variable» | parameter => exact rfl
      | function returnType parameters =>
        simp only [Typed.fit_eq]
        exact .check fun _ => Typed.type_call returnType name _
  | .not l operand, digits => by
    unfold Expr.elaborate Expr.check
    refine (operand.elaborate_agrees h digits).bind ?_
    rintro typed _ _ rfl
    exact .check fun _ => rfl
  | .and l left right, digits | .or l left right, digits
  | .arithmetic l operator left right, digits | .comparison l operator left right, digits => by
    unfold Expr.elaborate Expr.check
    obtain ⟨first, second⟩ := digits_append.mp digits
    refine (left.elaborate_agrees h first).bind ?_
    rintro left' _ _ rfl
    refine (right.elaborate_agrees h second).bind ?_
    rintro right' _ _ rfl
    rw [require_and]
    exact .check fun _ => rfl
  | .cast l target operand, digits => by
    unfold Expr.elaborate Expr.check
    refine (operand.elaborate_agrees h digits).bind ?_
    rintro typed _ _ rfl
    exact .check fun _ => Typed.type_cast (.ofName target) typed
  | .conditional l condition thenValue elseValue, digits => by
    unfold Expr.elaborate Expr.check
    obtain ⟨first, third⟩ := digits_append.mp digits
    obtain ⟨first, second⟩ := digits_append.mp first
    refine (condition.elaborate_agrees h first).bind ?_
    rintro condition' _ _ rfl
    refine .check fun _ => ?_
    refine (thenValue.elaborate_agrees h second).bind ?_
    rintro then' _ _ rfl
    refine (elseValue.elaborate_agrees h third).bind ?_
    rintro else' _ _ rfl
    exact .check fun _ => Typed.type_choice _ condition' then' else'

theorem Expr.elaborateAll_agrees (h : e.Shows x) : ∀ (ss : List Expr), Digits (Expr.tokensAll ss) →
    Agrees (fun typed types => typed.map Typed.type = types) (Expr.elaborateAll e ss)
      (Expr.checkAll x ss)
  | [], _ => by
    unfold Expr.elaborateAll Expr.checkAll
    exact rfl
  | s :: ss, digits => by
    unfold Expr.elaborateAll Expr.checkAll
    obtain ⟨first, rest⟩ := digits_append.mp digits
    refine (s.elaborate_agrees h first).bind ?_
    rintro typed _ _ rfl
    refine (Expr.elaborateAll_agrees h ss rest).bind ?_
    rintro others _ _ rfl
    exact rfl

end

theorem Expr.elaborateOption_agrees (h : e.Shows x) (s : Option Expr)
    (digits : Digits (Expr.tokensOption s)) :
    Agrees (fun typed type => typed.map Typed.type = type) (Expr.elaborateOption e s)
      (Expr.checkOption x s) := by
  cases s with
  | none => exact rfl
  | some s =>
    refine (s.elaborate_agrees h digits).bind ?_
    rintro typed _ _ rfl
    exact rfl

end Expressions

/-! ## Statements -/

/-- A statement leaves the names that it found, and what it declares. -/
def LeavesNames {α : Type} (x : Lexical) (s : Stmt) (r : α × Env × Layout) (_ : Unit) : Prop :=
  r.2.1.Shows (x.declare s.declared)

theorem Typed.converts_eq (value : Option Typed) (type : Ty) :
    Typed.converts value type = (value.map Typed.type).all (·.convertibleTo type) := by
  cases value <;> rfl

theorem Typed.returnFits_eq (returnType : Ty) (value : Option Typed) :
    Typed.returnFits returnType value = returnAllowed returnType (value.map Typed.type) := by
  cases value <;> rfl

mutual

theorem Stmt.elaborate_agrees {e : Env} {x : Lexical} :
    ∀ (s : Stmt) (layout : Layout), e.Shows x → Digits s.tokens →
      Agrees (LeavesNames x s) (s.elaborate e layout) (s.check x)
  | .declaration l type name initializer, layout, h, digits => by
    unfold Stmt.elaborate Stmt.check
    refine (Expr.elaborateOption_agrees h initializer digits).bind ?_
    rintro value _ _ rfl
    refine .check fun _ => ?_
    rw [Typed.converts_eq]
    refine .check fun _ => ?_
    have free : (!e.declares name) = (x.scope.lookup name).isNone := by
      rw [← h.declares]
      cases x.scope.lookup name <;> rfl
    rw [free, ← bind_pure (expect _ _)]
    exact .check fun _ =>
      h.cons name (.variable (.ofName type) layout.registers e.nextSlot) (e.nextSlot + 1)
  | .assignment l name value, layout, h, digits => by
    unfold Stmt.elaborate Stmt.check
    refine (value.elaborate_agrees h digits).bind ?_
    rintro typed _ _ rfl
    refine (h.resolve name l).bind ?_
    rintro ⟨place, type⟩ _ _ rfl
    rw [← bind_pure (expect _ _)]
    exact .check fun _ => h
  | .expression _ value, layout, h, digits => by
    unfold Stmt.elaborate Stmt.check
    exact (value.elaborate_agrees h digits).bind fun _ _ _ _ => h
  | .conditional _ condition thenBranch elseBranch, layout, h, digits => by
    unfold Stmt.elaborate Stmt.check Expr.checkCondition
    obtain ⟨first, third⟩ := digits_append.mp digits
    obtain ⟨first, second⟩ := digits_append.mp first
    rw [bind_assoc]
    refine (condition.elaborate_agrees h first).bind ?_
    rintro condition' _ _ rfl
    refine .check fun _ => ?_
    refine (thenBranch.elaborate_agrees layout (h.inner false) second).bind ?_
    rintro ⟨then', _, layout'⟩ _ _ _
    rw [← bind_pure (Stmt.checkOption _ _)]
    refine (Stmt.elaborateElse_agrees elseBranch layout' h third).bind ?_
    rintro ⟨else', layout''⟩ _ _ _
    cases else' with
    | none | some else' => exact h
  | .loop _ condition body, layout, h, digits => by
    unfold Stmt.elaborate Stmt.check Expr.checkCondition
    obtain ⟨first, second⟩ := digits_append.mp digits
    rw [bind_assoc]
    refine (condition.elaborate_agrees h first).bind ?_
    rintro condition' _ _ rfl
    refine .check fun _ => ?_
    rw [← bind_pure (body.check _)]
    exact (body.elaborate_agrees layout (h.inner true) second).bind fun _ _ _ _ => h
  | .break l, layout, h, _ | .continue l, layout, h, _ => by
    unfold Stmt.elaborate Stmt.check
    rw [h.inLoop, ← bind_pure (expect _ _)]
    exact .check fun _ => h
  | .return l value, layout, h, digits => by
    unfold Stmt.elaborate Stmt.check
    refine (Expr.elaborateOption_agrees h value digits).bind ?_
    rintro typed _ _ rfl
    rw [Typed.returnFits_eq, h.returnType, ← bind_pure (expect _ _)]
    exact .check fun _ => h
  | .block _ body, layout, h, digits => by
    unfold Stmt.elaborate Stmt.check
    rw [← bind_pure (Stmt.checkAll _ _)]
    exact (Stmt.elaborateAll_agrees body layout (h.inner false) digits).bind fun _ _ _ _ => h

theorem Stmt.elaborateElse_agrees {e : Env} {x : Lexical} :
    ∀ (s : Option Stmt) (layout : Layout), e.Shows x → Digits (Stmt.tokensOption s) →
      Agrees (fun _ _ => True) (Stmt.elaborateElse s e layout) (Stmt.checkOption s (x.enter false))
  | none, _, _, _ => by
    unfold Stmt.elaborateElse Stmt.checkOption
    exact trivial
  | some s, layout, h, digits => by
    unfold Stmt.elaborateElse Stmt.checkOption
    rw [← bind_pure (s.check _)]
    exact (s.elaborate_agrees layout (h.inner false) digits).bind fun _ _ _ _ => trivial

theorem Stmt.elaborateAll_agrees {e : Env} {x : Lexical} :
    ∀ (ss : List Stmt) (layout : Layout), e.Shows x → Digits (Stmt.tokensAll ss) →
      Agrees (fun _ _ => True) (Stmt.elaborateAll ss e layout) (Stmt.checkAll ss x)
  | [], _, _, _ => by
    unfold Stmt.elaborateAll Stmt.checkAll
    exact trivial
  | s :: ss, layout, h, digits => by
    unfold Stmt.elaborateAll Stmt.checkAll
    obtain ⟨first, rest⟩ := digits_append.mp digits
    refine (s.elaborate_agrees layout h first).bind ?_
    rintro ⟨action, e', layout'⟩ _ _ left
    rw [← bind_pure (Stmt.checkAll _ _)]
    exact (Stmt.elaborateAll_agrees ss layout' left rest).bind fun _ _ _ _ => trivial

end

/-! ## Functions -/

/-- The same global names can be used. -/
def GlobalsShow (globals : List (String × Meaning)) (before : Declarations) : Prop :=
  ∀ name, before.lookup name = (globals.lookup name).map Meaning.entity

theorem GlobalsShow.cons (h : GlobalsShow globals before) (name : String) (m : Meaning) :
    GlobalsShow ((name, m) :: globals) ((name, m.entity) :: before) := by
  intro other
  rw [lookup_cons, lookup_cons]
  cases other == name with
  | true => rfl
  | false => exact h other

theorem GlobalsShow.isNone (h : GlobalsShow globals before) (name : String) :
    (globals.lookup name).isNone = (before.lookup name).isNone := by
  rw [h name]
  cases globals.lookup name <;> rfl

theorem requireFormals_agrees (ps : List Parameter) :
    Agrees (fun _ _ => True) (requireFormals (ps.map Parameter.formal))
      (Parameter.checkTypes ps) := by
  induction ps with
  | nil => exact trivial
  | cons p ps ih => exact .check fun _ => ih

/-- The parameters are declared one after the other in the scope of the body. -/
theorem bindFormals_agrees (ps : List Parameter) (index : Nat) {e : Env} {x : Lexical}
    (h : e.Shows x) : Agrees (fun e' _ => e'.Shows (x.declare (ps.map Parameter.entry).reverse))
      (bindFormals (ps.map Parameter.formal) index e) (Parameter.checkNames ps x.scope) := by
  induction ps generalizing index e x with
  | nil => exact h
  | cons p ps ih =>
    unfold Parameter.checkNames
    have free : (!e.declares p.name) = (x.scope.lookup p.name).isNone := by
      rw [← h.declares]
      cases x.scope.lookup p.name <;> rfl
    show Agrees _ (require (!e.declares p.name) _ >>= _) _
    rw [free]
    refine .check fun _ => ?_
    refine (ih (index + 1) (h.cons p.name (.parameter (.ofName p.type) index) e.nextSlot)).imp
      fun e' _ => ?_
    intro shows
    simpa [Lexical.declare, Parameter.entry, Meaning.entity] using shows

/-- Before the parameters the scope of a body is empty, and around it are the global names. -/
theorem GlobalsShow.shows (h : GlobalsShow globals before) (returnType : Ty) :
    Env.Shows { outer := globals, returnType := returnType }
      { scope := [], around := [before], inLoop := false, returnType := returnType } := by
  refine ⟨fun name => ?_, fun _ => rfl, rfl, rfl⟩
  have found := h name
  unfold Lexical.find? Env.get?
  simp only [findSome?_cons, findSome?_nil, lookup_nil, nil_append]
  rw [found]
  cases globals.lookup name <;> rfl

theorem FunctionDef.declaration_eq (f : FunctionDef) :
    f.declaration = (f.name, Meaning.entity (.function (.ofName f.returnType)
      ((f.parameters.map Parameter.formal).map Builder.Formal.type))) := by
  rw [map_map]
  rfl

theorem FunctionDef.elaborate_agrees (f : FunctionDef) (h : GlobalsShow globals before)
    (registers : Nat) (digits : Digits (Stmt.tokensAll f.body)) :
    Agrees (fun r _ => GlobalsShow r.2.1 (f.declaration :: before)) (f.elaborate globals registers)
      (f.check before) := by
  let m : Meaning :=
    .function (.ofName f.returnType) ((f.parameters.map Parameter.formal).map Builder.Formal.type)
  have globals' : GlobalsShow ((f.name, m) :: globals) (f.declaration :: before) :=
    f.declaration_eq ▸ h.cons f.name m
  unfold FunctionDef.elaborate FunctionDef.check elaborateHead
  simp only [bind_assoc]
  refine .check fun _ => ?_
  refine (requireFormals_agrees f.parameters).bind fun _ _ _ _ => ?_
  rw [h.isNone]
  refine .check fun _ => ?_
  refine (bindFormals_agrees f.parameters 0 (globals'.shows (.ofName f.returnType))).bind ?_
  intro e _ _ inside
  unfold Lexical.declare at inside
  rw [List.append_nil] at inside
  rw [← bind_pure (Stmt.checkAll _ _)]
  exact (Stmt.elaborateAll_agrees f.body _ inside digits).bind fun _ _ _ _ => globals'

theorem FunctionDef.elaborateAll_agrees (fs : List FunctionDef) (h : GlobalsShow globals before)
    (registers : Nat) (digits : ∀ f ∈ fs, Digits (Stmt.tokensAll f.body)) :
    Agrees (fun _ _ => True) (FunctionDef.elaborateAll fs globals registers)
      (FunctionDef.checkAll fs before) := by
  induction fs generalizing globals before registers with
  | nil => exact trivial
  | cons f fs ih =>
    unfold FunctionDef.elaborateAll FunctionDef.checkAll
    obtain ⟨first, rest⟩ := forall_mem_cons.mp digits
    refine (f.elaborate_agrees h registers first).bind ?_
    rintro ⟨routine, globals', registers'⟩ _ _ shows
    rw [← bind_pure (FunctionDef.checkAll _ _)]
    exact (ih shows registers' rest).bind fun _ _ _ _ => trivial

theorem globalsShow_runtime : GlobalsShow runtimeNames runtimeDeclarations := by
  intro name
  by_cases print : name = "print"
  · rw [print]
    rfl
  · have other : (name == "print") = false := beq_eq_false_iff_ne.mpr print
    simp only [runtimeNames, runtimeFunctions, runtimeDeclarations, reverse_cons, reverse_nil,
      nil_append, cons_append, map_cons, map_nil, lookup_cons, lookup_nil, other]
    cases name == "printi" <;> rfl

/-! ## The entry point -/

theorem FunctionDef.Declares.declaration {f : FunctionDef} {r : Routine}
    (h : f.Declares globals r) : f.declaration = (r.name, .function r.returnType r.parameters) := by
  rw [f.declaration_eq, h.name, h.result, h.parameters]
  rfl

/-- A name that was free stands for the one function that is called so. -/
theorem FunctionDef.YieldsAll.free {returnType : Ty} {parameters : List Ty}
    (h : FunctionDef.YieldsAll fs globals registers routines last registers')
    (free : globals.lookup name = none) :
    (last.lookup name == some (.function returnType parameters))
      = fs.any (·.declaration == (name, .function returnType parameters)) := by
  induction h with
  | nil =>
    rw [free]
    rfl
  | @cons f fs globals _ r _ _ _ _ _ declares rest ih =>
    rw [any_cons, declares.declaration]
    by_cases same : r.name = name
    · have here : (r.entry :: globals).lookup name
          = some (.function r.returnType r.parameters) := by
        unfold Routine.entry
        rw [lookup_cons, beq_iff_eq.mpr same.symm]
      obtain ⟨found, others⟩ := rest.taken here
      have none : fs.any (·.declaration == (name, .function returnType parameters)) = false := by
        refine any_eq_false.mpr fun g mem eq => others g mem ?_
        exact (Prod.mk.inj (eq_of_beq eq)).1
      rw [found, none, Bool.or_false, same, Bool.eq_iff_iff]
      simp
    · have here : (r.entry :: globals).lookup name = none := by
        unfold Routine.entry
        rw [lookup_cons, beq_eq_false_iff_ne.mpr (Ne.symm same)]
        exact free
      have different : ((r.name, Entity.function r.returnType r.parameters)
          == (name, Entity.function returnType parameters)) = false := by
        rw [beq_eq_false_iff_ne]
        exact fun eq => same (Prod.mk.inj eq).1
      rw [different, Bool.false_or]
      exact ih here

/-! ## Programs -/

theorem Program.elaborate_agrees (p : Program) (digits : Digits p.tokens) :
    Agrees (fun _ _ => True) p.elaborate p.check := by
  have each : ∀ f ∈ p.functions, Digits (Stmt.tokensAll f.body) := fun f mem token here =>
    digits token (mem_flatMap.mpr ⟨f, mem, here⟩)
  unfold Program.elaborate Program.check
  refine (FunctionDef.elaborateAll_agrees p.functions globalsShow_runtime 0 each).bind ?_
  rintro ⟨routines, globals, registers⟩ _ plan _
  show Agrees _ (require (globals.lookup "main" == some (.function .void [])) _ >>= _) _
  rw [(FunctionDef.yieldsAll plan).free (by decide), ← bind_pure (expect _ _)]
  exact .check fun _ => trivial

/-- On a program whose numbers are written with digits the analysis gives the result of the checker:
it accepts what the checker accepts, and its first error is the error of the checker. -/
theorem Program.analyze_check (p : Program) (options : Options)
    (digits : ∀ token ∈ p.tokens, Decimal.isDigits token.toList = true) :
    (p.analyze (.start options)).map (fun r => r.1.map fun _ => ()) = .ok p.check := by
  have agrees := p.elaborate_agrees digits
  have follows := p.analyze_follows options
  cases elaborated : p.elaborate with
  | ok result =>
    rw [elaborated] at agrees follows
    obtain ⟨tree, c, analyzed, -⟩ := follows
    rw [analyzed]
    cases checked : p.check with
    | ok => rfl
    | error e =>
      rw [checked] at agrees
      exact agrees.elim
  | error failure =>
    rw [elaborated] at agrees follows
    cases checked : p.check with
    | ok =>
      rw [checked] at agrees
      exact agrees.elim
    | error e =>
      rw [checked] at agrees
      obtain rfl : failure = .semantic e := agrees
      obtain ⟨c, analyzed⟩ := follows
      rw [analyzed]
      rfl

/-- The variable of a block is out of reach behind it, and the loop of the caller does not count. -/
def Program.misplaced : Program :=
  let here := Location.atLine 4
  { functions :=
      [{ name := "main", returnType := "void"
         body :=
           [.block here [.declaration here "int" "i" (some (.literal here (.int "1")))],
            .assignment (.atLine 5) "i" (.literal here (.int "2")), .break here] }] }

/-- Both sides of the agreement: the first program is accepted, and the second is refused for the
assignment that stands before the `break`. -/
theorem Program.countdown_misplaced_check :
    (∀ token ∈ countdown.tokens, Decimal.isDigits token.toList = true) ∧
      (countdown.analyze (.start {})).map (fun r => r.1.map fun _ => ()) = .ok (.ok ()) ∧
      (∀ token ∈ misplaced.tokens, Decimal.isDigits token.toList = true) ∧
      (misplaced.analyze (.start {})).map (fun r => r.1.map fun _ => ())
        = .ok (.error (.undefinedVariable "i" (.atLine 5))) := by
  have first : ∀ token ∈ countdown.tokens, Decimal.isDigits token.toList = true := by decide
  have second : ∀ token ∈ misplaced.tokens, Decimal.isDigits token.toList = true := by decide
  have accepted : countdown.check = .ok () := by rfl
  have refused : misplaced.check = .error (.undefinedVariable "i" (.atLine 5)) := by rfl
  exact ⟨first, accepted ▸ analyze_check countdown {} first, second,
    refused ▸ analyze_check misplaced {} second⟩

end Backpatch
