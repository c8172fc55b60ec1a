import Backpatch.Proofs.Core.Types
import Backpatch.Proofs.Elaboration.Program
import Backpatch.Proofs.Elaboration.Registers
import Backpatch.Proofs.Elaboration.Scope

/-!
# Types of elaborated programs

What the elaboration accepts has types: an expression becomes a term of the type that it was found
to have (`Expr.Yields.keeps`), and a statement an action that keeps the rules
(`Stmt.Yields.wellTyped`). The types of the variables are those of their declarations in the source
(`Stmt.types`).
-/

namespace Backpatch

open List

/-! ## Expressions -/

/-- The expression has the type that it was found to have. -/
def Typed.Keeps (Γ : Types) : Typed → Prop
  | .value type term => term.HasType Γ type
  | .truth test => test.WellTyped Γ
  | .void name arguments =>
    ∃ parameters, Γ.functions name = some (.void, parameters) ∧ arguments.HaveTypes Γ parameters

/-- The names of the environment have these types. -/
structure Env.TypedBy (e : Env) (Γ : Types) : Prop where
  locals : ∀ name type pointer offset, e.get? name = some (.variable type pointer offset) →
    Γ.locals pointer = some type
  parameters : ∀ name type index, e.get? name = some (.parameter type index) →
    Γ.parameters[index]? = some type
  functions : ∀ name returnType types, e.get? name = some (.function returnType types) →
    Γ.functions name = some (returnType, types)

variable {type : Ty} {α κ : Type} {xs : List (κ × α)} {g : FunctionDef}
  {globals' last : List (String × Meaning)}
  {registers registers' : Nat} {f : Routine} {functions : String → Option (Ty × List Ty)}
  {gs : List FunctionDef} {fs : List Routine}

theorem Ty.eq_void_of_convertibleTo (h : Ty.convertibleTo .void type = true) : type = .void := by
  cases type with
  | void => rfl
  | _ => cases h

/-- An expression of type `bool` is a test. -/
theorem Expr.Yields.eq_truth {e : Env} {a : Expr} {ta : Typed} (h : Expr.Yields e a ta)
    (bool : ta.type = .bool) : ta = .truth ta.test := by
  cases h with
  | int | byte | string => cases bool
  | bool | not | and | or | comparison => rfl
  | «variable» | parameter =>
    rw [Typed.type_read] at bool
    rw [bool]
    rfl
  | call =>
    rw [Typed.type_call] at bool
    rw [bool]
    rfl
  | arithmetic left right leftNumeric rightNumeric =>
    exact absurd bool (Ty.castUp_of_isNumeric leftNumeric rightNumeric).1
  | cast =>
    rw [Typed.type_cast] at bool
    rw [bool]
    rfl
  | conditional =>
    rw [Typed.type_choice] at bool
    rw [bool]
    rfl

section Expressions

variable {Γ : Types}

variable {typed : Typed} {type : Ty}

theorem Typed.Keeps.term (h : typed.Keeps Γ) (notVoid : typed.type ≠ .void) :
    typed.term.HasType Γ typed.type := by
  cases typed with
  | value type term => exact h
  | truth test => exact ⟨rfl, h⟩
  | void name arguments => exact absurd rfl notVoid

theorem Typed.Keeps.test (h : typed.Keeps Γ) : typed.test.WellTyped Γ := by
  cases typed with
  | value type term | void name arguments => trivial
  | truth test => exact h

theorem Typed.Keeps.convertsTo (h : typed.Keeps Γ) (converts : typed.type.convertibleTo type = true)
    (notVoid : type ≠ .void) : typed.term.ConvertsTo Γ type := by
  refine ⟨typed.type, h.term fun void => notVoid ?_, converts⟩
  rw [void] at converts
  exact Ty.eq_void_of_convertibleTo converts

theorem Typed.keeps_read {place : Place} (h : Γ.place place = some type) :
    (Typed.read type place).Keeps Γ := by
  unfold Typed.read
  split
  · rename_i bool
    exact h.trans (congrArg some bool)
  · rename_i other
    exact ⟨other, h⟩

theorem Typed.keeps_arguments {typed : List Typed} {types : List Ty} (h : ∀ t ∈ typed, t.Keeps Γ)
    (fit : Typed.fit typed types = true) (values : ∀ type ∈ types, type.isValue = true) :
    (Typed.arguments typed types).HaveTypes Γ types := by
  induction typed generalizing types with
  | nil =>
    cases types with
    | nil => rfl
    | cons type types => cases fit
  | cons first rest ih =>
    cases types with
    | nil => cases fit
    | cons type types =>
      unfold Typed.fit at fit
      obtain ⟨converts, fit⟩ := Bool.and_eq_true_iff.mp fit
      have notVoid : type ≠ .void := by
        rintro rfl
        exact absurd (values .void mem_cons_self) (by decide)
      obtain ⟨firstKeeps, restKeep⟩ := forall_mem_cons.mp h
      exact ⟨type, types, rfl, rfl, firstKeeps.convertsTo converts notVoid,
        ih restKeep fit fun t mem => values t (mem_cons_of_mem _ mem)⟩

theorem Typed.keeps_call {name : String} {returnType : Ty} {parameters : List Ty}
    {arguments : Arguments} (found : Γ.functions name = some (returnType, parameters))
    (h : arguments.HaveTypes Γ parameters) :
    (Typed.call returnType name arguments).Keeps Γ := by
  unfold Typed.call
  split
  · rename_i void
    exact ⟨parameters, void ▸ found, h⟩
  · rename_i notVoid
    split
    · rename_i bool
      exact ⟨parameters, bool ▸ found, h⟩
    · rename_i notBool
      exact ⟨notVoid, notBool, rfl, parameters, found, h⟩

theorem Typed.keeps_cast {operand : Typed} {target : Ty} (h : operand.Keeps Γ)
    (fits : ((operand.type.isNumeric && target.isNumeric) ||
      (operand.type == target && !target.isSpecial)) = true) :
        (Typed.cast target operand).Keeps Γ := by
  unfold Typed.cast
  split
  · exact h.test
  · rename_i notBool
    have notVoid : operand.type ≠ .void := by
      intro void
      rw [void] at fits
      revert fits
      cases target <;> decide
    have own := h.term notVoid
    split
    · rename_i narrows
      exact ⟨rfl, narrows.1 ▸ own⟩
    · rename_i widens
      -- What is left are the casts between numbers that keep the value.
      have numbers : target.isNumeric = true ∧ operand.type.convertibleTo target = true := by
        revert fits notBool widens
        cases operand.type <;> cases target <;> decide
      exact ⟨numbers.1, operand.type, own, numbers.2⟩

theorem Typed.keeps_choice {condition thenValue elseValue : Typed} (hc : condition.Keeps Γ)
    (ht : thenValue.Keeps Γ) (he : elseValue.Keeps Γ)
    (valid : Ty.castUp thenValue.type elseValue.type ≠ .invalid)
    (notVoid : Ty.castUp thenValue.type elseValue.type ≠ .void) :
    (Typed.choice (Ty.castUp thenValue.type elseValue.type) condition thenValue elseValue).Keeps
      Γ := by
  unfold Typed.choice
  split
  · exact ⟨hc.test, ht.test, he.test⟩
  · rename_i notBool
    have values : (Ty.castUp thenValue.type elseValue.type).isValue = true ∧
        thenValue.type ≠ .void ∧ elseValue.type ≠ .void := by
      revert valid notVoid
      cases thenValue.type <;> cases elseValue.type <;> decide
    exact ⟨rfl, notBool, values.1, hc.test, _, _, ht.term values.2.1, he.term values.2.2, rfl⟩

variable {e : Env}

mutual

theorem Expr.Yields.keeps (sound : Γ.Sound) (he : e.TypedBy Γ) {x : Expr} {typed : Typed} :
    Expr.Yields e x typed → typed.Keeps Γ
  | .int _ _ => ⟨Int32.le_toInt _, Int.le_of_lt_add_one (Int32.toInt_lt _)⟩
  | .byte _ _ => ⟨Int.natCast_nonneg _, Int.ofNat_le.mpr (Nat.le_of_lt_succ (UInt8.toNat_lt _))⟩
  | .bool => trivial
  | .string => rfl
  | .variable found => Typed.keeps_read (he.locals _ _ _ _ found)
  | .parameter found => Typed.keeps_read (he.parameters _ _ _ found)
  | .call all found fit =>
    have function := he.functions _ _ _ found
    Typed.keeps_call function (Typed.keeps_arguments (all.keeps sound he) fit
      (sound.parameters _ _ _ function))
  | .not operand _ => (operand.keeps sound he).test
  | .and left right _ _ | .or left right _ _ =>
    ⟨(left.keeps sound he).test, (right.keeps sound he).test⟩
  | .arithmetic left right leftNumeric rightNumeric =>
    ⟨rfl, _, _, (left.keeps sound he).term (Ty.ne_void_of_isNumeric leftNumeric),
      (right.keeps sound he).term (Ty.ne_void_of_isNumeric rightNumeric), leftNumeric,
        rightNumeric, rfl⟩
  | .comparison left right leftNumeric rightNumeric =>
    ⟨_, _, (left.keeps sound he).term (Ty.ne_void_of_isNumeric leftNumeric),
      (right.keeps sound he).term (Ty.ne_void_of_isNumeric rightNumeric), leftNumeric, rightNumeric⟩
  | .cast operand fits => Typed.keeps_cast (operand.keeps sound he) fits
  | .conditional condition _ thenValue elseValue valid notVoid =>
    Typed.keeps_choice (condition.keeps sound he) (thenValue.keeps sound he)
      (elseValue.keeps sound he) valid notVoid

theorem Expr.YieldsAll.keeps (sound : Γ.Sound) (he : e.TypedBy Γ) {xs : List Expr}
    {typed : List Typed} : Expr.YieldsAll e xs typed → ∀ t ∈ typed, t.Keeps Γ
  | .nil => forall_mem_nil _
  | .cons first rest => forall_mem_cons.mpr ⟨first.keeps sound he, rest.keeps sound he⟩

end

end Expressions

/-! ## Statements -/

mutual

/-- The variables that a statement declares, inside it and for those after it, by the numbers of
their registers in what the statement becomes, each with the type that it is declared with. -/
def Stmt.types : Stmt → Action → List (Nat × Ty)
  | .declaration _ type _ _, .declare _ pointer _ => [(pointer, .ofName type)]
  | .conditional _ _ s _, .when _ a => s.types a
  | .conditional _ _ s other, .either _ a a' => s.types a ++ Stmt.typesOption other a'
  | .loop _ _ s, .loop _ a => s.types a
  | .block _ ss, .block as => Stmt.typesAll ss as
  | _, _ => []

def Stmt.typesOption : Option Stmt → Action → List (Nat × Ty)
  | some s, a => s.types a
  | none, _ => []

def Stmt.typesAll : List Stmt → Actions → List (Nat × Ty)
  | s :: ss, .cons a as => s.types a ++ Stmt.typesAll ss as
  | _, _ => []

end

section Statements

variable {Γ : Types}

variable {e : Env} {name : String} {type : Ty}

theorem Env.TypedBy.addVariable (h : e.TypedBy Γ) {pointer : Nat}
    (found : Γ.locals pointer = some type) : (e.addVariable name type pointer).TypedBy Γ where
  locals other type' pointer' offset get := by
    rcases Env.of_get?_eq_some get rfl rfl with eq | get
    · cases eq
      exact found
    · exact h.locals other type' pointer' offset get
  parameters _ _ _ get :=
    h.parameters _ _ _ ((Env.of_get?_eq_some get rfl rfl).resolve_left Meaning.noConfusion)
  functions _ _ _ get :=
    h.functions _ _ _ ((Env.of_get?_eq_some get rfl rfl).resolve_left Meaning.noConfusion)

theorem Env.TypedBy.inner (h : e.TypedBy Γ) (isLoop : Bool) : (e.inner isLoop).TypedBy Γ :=
  ⟨h.locals, h.parameters, h.functions⟩

theorem Env.TypedBy.resolve (h : e.TypedBy Γ) {l : Location} {place : Place}
    (resolved : e.resolve name l = .ok (place, type)) : Γ.place place = some type := by
  rcases Env.resolve_eq_ok resolved with ⟨pointer, offset, rfl, found⟩ | ⟨index, rfl, found⟩
  · exact h.locals _ _ _ _ found
  · exact h.parameters _ _ _ found

theorem Typed.Keeps.action {typed : Typed} (h : typed.Keeps Γ) (returnType : Ty) :
    typed.action.WellTyped Γ returnType := by
  cases typed with
  | value type term => exact ⟨type, h⟩
  | truth test | void name arguments => exact h

theorem Ty.ne_void_of_isSpecial (h : type.isSpecial = false) : type ≠ .void := by
  rintro rfl
  cases h

mutual

/-- A statement keeps the rules, if its variables have the types that it declares. -/
theorem Stmt.Yields.wellTyped (sound : Γ.Sound) {s : Stmt} {e e' : Env} {layout layout' : Layout}
    {a : Action} :
    Stmt.Yields s e layout a e' layout' → e.TypedBy Γ → (∀ q ∈ s.types a, Γ.locals q.1 = some q.2) →
      a.WellTyped Γ e.returnType ∧ e'.TypedBy Γ
  | .declaration value storable converts _, he, types => by
    have found := types _ mem_cons_self
    refine ⟨?_, he.addVariable found⟩
    cases value with
    | none => exact ⟨_, found⟩
    | some value =>
      exact ⟨_, found, (value.keeps sound he).convertsTo converts
        (Ty.ne_void_of_isSpecial storable)⟩
  | .assignment value resolved converts, he, _ => by
    have found := he.resolve resolved
    have notVoid := Ty.ne_void_of_isSpecial (sound.places _ _ found)
    exact ⟨⟨_, found, (value.keeps sound he).convertsTo converts notVoid⟩, he⟩
  | .expression value, he, _ => ⟨(value.keeps sound he).action _, he⟩
  | .when condition _ body, he, types =>
    ⟨⟨(condition.keeps sound he).test, (body.wellTyped sound (he.inner false) types).1⟩, he⟩
  | .either condition _ thenBranch elseBranch, he, types => by
    obtain ⟨first, second⟩ := forall_mem_append.mp types
    exact ⟨⟨(condition.keeps sound he).test, (thenBranch.wellTyped sound (he.inner false) first).1,
      (elseBranch.wellTyped sound (he.inner false) second).1⟩, he⟩
  | .loop condition _ body, he, types =>
    ⟨⟨(condition.keeps sound he).test, (body.wellTyped sound (he.inner true) types).1⟩, he⟩
  | .break _, he, _ | .continue _, he, _ => ⟨trivial, he⟩
  | .return value fits, he, _ => by
    refine ⟨?_, he⟩
    cases value with
    | none => exact trivial
    | some value =>
      obtain ⟨notVoid, converts⟩ := Bool.and_eq_true_iff.mp fits
      exact (value.keeps sound he).convertsTo converts (bne_iff_ne.mp notVoid)
  | .block body, he, types => ⟨body.wellTyped sound (he.inner false) types, he⟩

theorem Stmt.YieldsAll.wellTyped (sound : Γ.Sound) {ss : List Stmt} {e e' : Env}
    {layout layout' : Layout} {as : Actions} :
    Stmt.YieldsAll ss e layout as e' layout' → e.TypedBy Γ →
      (∀ q ∈ Stmt.typesAll ss as, Γ.locals q.1 = some q.2) → as.WellTyped Γ e.returnType
  | .nil, _, _ => trivial
  | .cons first rest, he, types => by
    obtain ⟨here, later⟩ := forall_mem_append.mp types
    obtain ⟨hfirst, he'⟩ := first.wellTyped sound he here
    have hrest := rest.wellTyped sound he' later
    rw [first.grows.2] at hrest
    exact ⟨hfirst, hrest⟩

end

theorem Typed.types_action (typed : Typed) (l : Location) (x : Expr) :
    (Stmt.expression l x).types typed.action = [] := by
  cases typed <;> rfl

mutual

/-- The variables are those that get registers, and can be stored. -/
theorem Stmt.Yields.map_types {s : Stmt} {e e' : Env} {layout layout' : Layout} {a : Action} :
    Stmt.Yields s e layout a e' layout' →
      (s.types a).map Prod.fst = a.pointers ∧ ∀ q ∈ s.types a, q.2.isSpecial = false
  | .declaration _ storable _ _ => ⟨rfl, forall_mem_singleton.mpr storable⟩
  | .assignment .. | .break _ | .continue _ | .return .. => ⟨rfl, forall_mem_nil _⟩
  | .expression _ => by
    rw [Typed.types_action, Typed.pointers_action]
    exact ⟨rfl, forall_mem_nil _⟩
  | .when _ _ body | .loop _ _ body | .block body => body.map_types
  | .either _ _ thenBranch elseBranch => by
    have first := thenBranch.map_types
    have second := elseBranch.map_types
    refine ⟨?_, forall_mem_append.mpr ⟨first.2, second.2⟩⟩
    show (map Prod.fst (_ ++ _)) = _
    rw [map_append, first.1]
    exact congrArg _ second.1

theorem Stmt.YieldsAll.map_types {ss : List Stmt} {e e' : Env} {layout layout' : Layout}
    {as : Actions} : Stmt.YieldsAll ss e layout as e' layout' →
      (Stmt.typesAll ss as).map Prod.fst = as.pointers ∧
        ∀ q ∈ Stmt.typesAll ss as, q.2.isSpecial = false
  | .nil => ⟨rfl, forall_mem_nil _⟩
  | .cons first rest => by
    have here := first.map_types
    have later := rest.map_types
    refine ⟨?_, forall_mem_append.mpr ⟨here.2, later.2⟩⟩
    show (map Prod.fst (_ ++ _)) = _
    rw [map_append, here.1, later.1]
    rfl

end

end Statements

/-! ## Functions -/

/-- The function that a global name stands for. -/
def functionTypes (globals : List (String × Meaning)) (name : String) : Option (Ty × List Ty) :=
  match globals.lookup name with
  | some (.function returnType parameters) => some (returnType, parameters)
  | _ => none

/-- The types of the names of a function, given what the function becomes and the functions it can
call. -/
def FunctionDef.types (g : FunctionDef) (f : Routine) (functions : String → Option (Ty × List Ty)) :
    Types where
  locals := fun pointer => (Stmt.typesAll g.body f.body).lookup pointer
  parameters := f.parameters
  functions := functions

theorem lookup_of_mem [BEq κ] [LawfulBEq κ] (nodup : (xs.map Prod.fst).Nodup) {q : κ × α}
    (mem : q ∈ xs) : xs.lookup q.1 = some q.2 := by
  obtain ⟨before, behind, rfl⟩ := append_of_mem mem
  rw [map_append, map_cons] at nodup
  have apart := (nodup_append.mp nodup).2.2
  refine lookup_eq_some_iff.mpr ⟨before, behind, rfl, fun p earlier => bne_iff_ne.mpr ?_⟩
  exact (apart _ (mem_map_of_mem earlier) _ mem_cons_self).symm

theorem mem_of_lookup [BEq κ] [LawfulBEq κ] {n : κ} {a : α} (h : xs.lookup n = some a) :
    (n, a) ∈ xs := by
  obtain ⟨before, behind, rfl, -⟩ := lookup_eq_some_iff.mp h
  exact mem_append_right _ mem_cons_self

/-- A function that is accepted keeps the rules, with all functions that it can see. -/
theorem FunctionDef.elaborate_wellTyped {globals : List (String × Meaning)}
    (h : g.elaborate globals registers = .ok (f, globals', registers'))
    (names : GlobalNames globals) (knows : ∀ name returnType parameters, globals'.lookup name
      = some (.function returnType parameters) → functions name = some (returnType, parameters))
    (sound : ∀ name returnType parameters, functions name = some (returnType, parameters) →
      (Meaning.function returnType parameters).Sound) :
    f.WellTyped (g.types f functions) := by
  have pointers := (g.elaborate_pointers h).2
  unfold FunctionDef.elaborate at h
  obtain ⟨e, head, h⟩ := of_bind_eq_ok h
  obtain ⟨⟨as, e', layout⟩, body, h⟩ := of_bind_eq_ok h
  cases h
  obtain ⟨result, storable, -, bound⟩ := of_elaborateHead_eq_ok head
  have yields := Stmt.yieldsAll body
  obtain ⟨registered, special⟩ := yields.map_types
  -- No register is given out twice, so each has the type of one variable.
  have distinct : ((Stmt.typesAll g.body as).map Prod.fst).Nodup := by
    rw [registered]
    exact (nodup_append.mp (pointers.nodup_iff.mpr nodup_range')).2.1
  let formals := g.parameters.map Parameter.formal
  let parameters := formals.map Builder.Formal.type
  let m : Meaning := .function (Ty.ofName g.returnType) parameters
  let f : Routine :=
    { name := g.name, returnType := Ty.ofName g.returnType, parameters := parameters
      frameSize := layout.frameSize, slots := layout.slots, body := as }
  let Γ := g.types f functions
  have typed : Γ.Sound := by
    refine ⟨?_, ?_, ?_⟩
    · intro place type found
      cases place with
      | «variable» pointer => exact special _ (mem_of_lookup found)
      | parameter index =>
        obtain ⟨p, mem, rfl⟩ := mem_map.mp (mem_of_getElem? found)
        exact storable p mem
    · exact fun name returnType parameters found => (sound name returnType parameters found).2.1
    · intro name returnType parameters found type mem
      obtain ⟨notVoid, valid⟩ := (sound name returnType parameters found).2.2 type mem
      cases type with
      | void => exact absurd rfl notVoid
      | invalid => exact absurd rfl valid
      | _ => rfl
  obtain ⟨returnType, -, -, means⟩ := bindFormals_eq_ok bound
  have only := names.cons g.name (Ty.ofName g.returnType) parameters
  have inside : e.TypedBy Γ := by
    refine ⟨fun name type pointer offset found => ?_, fun name type index found => ?_,
      fun name returnType types found => ?_⟩
    · rcases means _ _ found with found | ⟨_, _, -, eq⟩
      · obtain ⟨_, _, eq⟩ := only name _ found
        cases eq
      · cases eq
    · rcases means _ _ found with found | ⟨i, p, there, eq⟩
      · obtain ⟨_, _, eq⟩ := only name _ found
        cases eq
      · cases eq
        show (formals.map Builder.Formal.type)[0 + i]? = _
        rw [Nat.zero_add, getElem?_map, there]
        rfl
    · rcases means _ _ found with found | ⟨_, _, -, eq⟩
      · exact knows name returnType types found
      · cases eq
  have wellTyped := yields.wellTyped typed inside fun q mem => lookup_of_mem distinct mem
  rw [returnType] at wellTyped
  rw [Bool.and_eq_true, bne_iff_ne, bne_iff_ne] at result
  exact ⟨typed, rfl, result, wellTyped⟩

theorem FunctionDef.elaborate_locals {globals : List (String × Meaning)}
    (h : g.elaborate globals registers = .ok (f, globals', registers')) {pointer : Nat}
    (found : (g.types f functions).locals pointer = some type) : pointer ∈ f.body.pointers := by
  obtain ⟨e, -, h⟩ := of_bind_eq_ok h
  obtain ⟨⟨as, e', layout⟩, body, h⟩ := of_bind_eq_ok h
  cases h
  rw [← (Stmt.yieldsAll body).map_types.1]
  exact mem_map_of_mem (mem_of_lookup found)

/-! ## Programs -/

/-- The global names behind functions, the last one first. -/
def Routine.globals (fs : List Routine) : List (String × Meaning) :=
  (fs.map Routine.entry).reverse ++ runtimeNames

/-- Each function is elaborated where the global names are some of those behind all functions. -/
theorem FunctionDef.YieldsAll.mem {globals : List (String × Meaning)}
    (h : FunctionDef.YieldsAll gs globals registers fs last registers')
    (names : GlobalNames globals) :
    ∀ q ∈ gs.zip fs, ∃ before registers₀ behind registers₁,
      q.1.elaborate before registers₀ = .ok (q.2, behind, registers₁) ∧ GlobalNames before ∧
        ∀ name m, behind.lookup name = some m → last.lookup name = some m := by
  induction h with
  | nil => exact forall_mem_nil _
  | cons first _ rest ih =>
    exact forall_mem_cons.mpr ⟨⟨_, _, _, _, first, names, fun _ _ found => (rest.taken found).1⟩,
      ih (names.cons _ _ _)⟩

theorem FunctionDef.YieldsAll.globals {globals : List (String × Meaning)}
    (h : FunctionDef.YieldsAll gs globals registers fs last registers')
    (sound : ∀ name m, globals.lookup name = some m → m.Sound) :
    last = (fs.map Routine.entry).reverse ++ globals ∧
      ∀ name m, last.lookup name = some m → m.Sound := by
  induction h with
  | nil => exact ⟨rfl, sound⟩
  | cons _ declares _ ih =>
    obtain ⟨eq, soundLast⟩ := ih fun name m found => by
      rcases Routine.lookup_entry found with ⟨-, rfl⟩ | found
      · rw [declares.result, declares.parameters]
        exact Meaning.sound_function declares.returned declares.storable
      · exact sound name m found
    refine ⟨?_, soundLast⟩
    rw [eq, map_cons, reverse_cons, append_assoc]
    rfl

theorem sound_runtimeNames : ∀ name m, runtimeNames.lookup name = some m → m.Sound := by
  intro name m found
  rcases lookup_runtimeNames found with ⟨-, rfl⟩ | ⟨-, rfl⟩ <;>
    exact ⟨by decide, by decide, forall_mem_singleton.mpr (by decide)⟩

section Programs

variable {p : Program} {fs : List Routine} {registers : Nat}

/-- The global names of a program that is accepted, with its entry point among them. -/
theorem Program.elaborate_globals (h : p.elaborate = .ok (fs, registers)) :
    FunctionDef.YieldsAll p.functions runtimeNames 0 fs (Routine.globals fs) registers ∧
      (Routine.globals fs).lookup "main" = some (.function .void []) := by
  obtain ⟨last, all, entry⟩ := Program.of_elaborate_eq_ok h
  rw [show Routine.globals fs = last from (all.globals sound_runtimeNames).1.symm]
  exact ⟨all, entry⟩

/-- Each function of a program that is accepted is elaborated where the global names are some of
those of the program. -/
theorem Program.elaborate_mem (h : p.elaborate = .ok (fs, registers)) :
    ∀ q ∈ p.functions.zip fs, ∃ before registers₀ behind registers₁,
      q.1.elaborate before registers₀ = .ok (q.2, behind, registers₁) ∧ GlobalNames before ∧
        ∀ name m, behind.lookup name = some m → (Routine.globals fs).lookup name = some m :=
  (Program.elaborate_globals h).1.mem globalNames_runtime

theorem Program.elaborate_sound (h : p.elaborate = .ok (fs, registers)) :
    ∀ name m, (Routine.globals fs).lookup name = some m → m.Sound :=
  ((Program.elaborate_globals h).1.globals sound_runtimeNames).2

/-- A program that is accepted has an entry point. -/
theorem Program.elaborate_main (h : p.elaborate = .ok (fs, registers)) :
    ∃ f ∈ fs, f.name = "main" ∧ f.returnType = .void ∧ f.parameters = [] := by
  have entry := (Program.elaborate_globals h).2
  unfold Routine.globals at entry
  rw [lookup_append] at entry
  rcases Option.or_eq_some_iff.mp entry with own | ⟨-, runtime⟩
  · obtain ⟨f, mem, eq⟩ := mem_map.mp (mem_reverse.mp (mem_of_lookup own))
    obtain ⟨name, meaning⟩ := Prod.mk.inj eq
    obtain ⟨returnType, parameters⟩ := Meaning.function.inj meaning
    exact ⟨f, mem, name, returnType, parameters⟩
  · have none : runtimeNames.lookup "main" = none := by decide
    rw [none] at runtime
    cases runtime

theorem functionTypes_eq_some {globals : List (String × Meaning)} {name : String} {returnType : Ty}
    {parameters : List Ty} : functionTypes globals name = some (returnType, parameters) ↔
      globals.lookup name = some (.function returnType parameters) := by
  unfold functionTypes
  split
  · rename_i eq
    rw [eq]
    simp
  · rename_i other
    refine ⟨fun found => ?_, fun found => absurd found (other returnType parameters)⟩
    cases found

/-- The functions of a program that is accepted keep the rules. -/
theorem Program.elaborate_wellTyped (h : p.elaborate = .ok (fs, registers)) :
    ∀ q ∈ p.functions.zip fs, q.2.WellTyped (q.1.types q.2
      (functionTypes (Routine.globals fs))) := by
  intro q mem
  obtain ⟨before, _, behind, _, elaborated, names, kept⟩ := Program.elaborate_mem h q mem
  refine q.1.elaborate_wellTyped elaborated names ?_ ?_
  · exact fun name returnType parameters found => functionTypes_eq_some.mpr (kept _ _ found)
  · exact fun name returnType parameters found =>
      Program.elaborate_sound h name _ (functionTypes_eq_some.mp found)

end Programs

end Backpatch
