import Backpatch.Proofs.Elaboration.Types
import Backpatch.Proofs.Semantics.Values

/-!
# Elaboration of expressions and their meaning

An expression and the term that it becomes have the same outcome (`Expr.Yields.means`), where
variables are kept at their places and the functions that can be called agree (`Env.Reflects`).
-/

namespace Backpatch

open Outcome

/-! ## Values of a type -/

/-- A value of the type, kept as the value of a core term. -/
structure Value.Kept (v : Value) (type : Ty) (c : Scalar) : Prop where
  type : v.type = type
  scalar : v.scalar? = some c

namespace Value.Kept

variable {v : Value} {type type' : Ty} {c : Scalar}

theorem convert (h : v.Kept type c) (converts : type.convertibleTo type' = true) :
    (v.convert type').Kept type' c := by
  obtain ⟨converted, same⟩ := Value.convert_of_convertibleTo (v := v) (h.type ▸ converts)
  exact ⟨converted, same.trans h.scalar⟩

theorem exists_word (h : v.Kept type c) (storable : type.isSpecial = false) : ∃ w, c = .word w := by
  obtain ⟨rfl, scalar⟩ := h
  cases v with
  | int | byte | bool => exact ⟨_, (Option.some.inj scalar).symm⟩
  | string | void => cases storable

theorem storable {w : Word} (h : v.Kept type (.word w)) : type.isSpecial = false := by
  obtain ⟨rfl, scalar⟩ := h
  cases v with
  | int | byte | bool => rfl
  | string | void => cases scalar

theorem exists_bool (h : v.Kept .bool c) : ∃ b, v = .bool b ∧ c = .ofBool b := by
  obtain ⟨type, scalar⟩ := h
  cases v with
  | bool b => exact ⟨b, rfl, (Option.some.inj scalar).symm⟩
  | int | byte | string | void => cases type

end Value.Kept

theorem Ty.isSpecial_of_isNumeric {type : Ty} (h : type.isNumeric = true) :
    type.isSpecial = false := by
  cases type <;> first | rfl | cases h

theorem Ty.isSpecial_of_convertibleTo {a b : Ty} (h : a.convertibleTo b = true)
    (storable : b.isSpecial = false) : a.isSpecial = false := by
  rcases Ty.eq_or_of_convertibleTo h with rfl | ⟨rfl, -⟩
  · exact storable
  · rfl

theorem Ty.convertibleTo_castUp_left {a b : Ty} (h : Ty.castUp a b ≠ .invalid) :
    a.convertibleTo (Ty.castUp a b) = true := by
  cases a <;> cases b <;> first | rfl | exact absurd rfl h

theorem Ty.convertibleTo_castUp_right {a b : Ty} (h : Ty.castUp a b ≠ .invalid) :
    b.convertibleTo (Ty.castUp a b) = true := by
  rw [Ty.castUp_comm] at h ⊢
  exact Ty.convertibleTo_castUp_left h

/-- The values are those that the parameters get, kept as values of core terms. -/
def Value.Passed : List Value → List Ty → List Scalar → Prop
  | [], [], [] => True
  | v :: vs, type :: types, c :: cs => (v.convert type).Kept type c ∧ Passed vs types cs
  | _, _, _ => False

/-- Both calls of a function have the same outcome. -/
structure Setting.Agrees (S : Setting) (C : CoreSetting) (name : String) (returnType : Ty)
    (parameters : List Ty) : Prop where
  result : S.returnType name = returnType
  storable : ∀ type ∈ parameters, type ≠ .void
  call : ∀ values scalars, Value.Passed values parameters scalars →
    Refines (fun v r => v.type = returnType ∧ r = v.scalar?) (S.call name values)
      (C.call name scalars)

/-- The place of a name that stands for a variable or a parameter, with its type. -/
def Meaning.place? : Meaning → Option (Place × Ty)
  | .variable type pointer _ => some (.variable pointer, type)
  | .parameter type index => some (.parameter index, type)
  | .function _ _ => none

/-- What the names of an environment stand for is the same in both settings. -/
structure Env.Reflects (e : Env) (S : Setting) (C : CoreSetting) (store : Store) (σ : Locals) :
    Prop where
  overflow : S.overflow = C.overflow
  places : ∀ name m place type, e.get? name = some m → m.place? = some (place, type) →
    ∃ v, store.lookup name = some v ∧ v.Kept type (.word (σ place))
  functions : ∀ name returnType parameters, e.get? name = some (.function returnType parameters) →
    S.Agrees C name returnType parameters

/-! ## Typed terms -/

/-- The outcome is that of the elaborated expression. -/
def Typed.Means (C : CoreSetting) (σ : Locals) (o : Outcome Value) : Typed → Prop
  | value type term => type ≠ .bool ∧ Refines (fun v c => v.Kept type c) o (term.eval C σ)
  | truth test => Refines (fun v b => v = .bool b) o (test.eval C σ)
  | void name arguments =>
    Refines (fun v r => v = .void ∧ r = none) o (arguments.eval C σ >>= C.call name)

namespace Typed

variable {C : CoreSetting} {σ : Locals} {o : Outcome Value} {typed : Typed}

theorem Means.term (h : typed.Means C σ o) (notVoid : typed.type ≠ .void) :
    Refines (fun v c => v.Kept typed.type c) o (typed.term.eval C σ) := by
  cases typed with
  | value type term => exact h.2
  | truth test =>
    refine Refines.bind_right h fun v b same => ?_
    subst same
    exact .pure ⟨rfl, rfl⟩
  | void name arguments => exact absurd rfl notVoid

theorem Means.bind_number {α β : Type} {R : α → β → Prop} {next : Value → Outcome α}
    {next' : Word → Outcome β} (h : typed.Means C σ o) (storable : typed.type.isSpecial = false)
    (rest : ∀ v w, v.Kept typed.type (.word w) → Refines R (next v) (next' w)) :
    Refines R (o >>= next) (typed.term.eval C σ >>= fun c => c.number >>= next') := by
  refine (h.term (Ty.ne_void_of_isSpecial storable)).bind fun v c kept => ?_
  obtain ⟨w, rfl⟩ := kept.exists_word storable
  rw [Scalar.number_word_bind]
  exact rest v w kept

theorem Means.test (h : typed.Means C σ o) (bool : typed.type = .bool) :
    Refines (fun v b => v = .bool b) o (typed.test.eval C σ) := by
  cases typed with
  | value type term => exact absurd bool h.1
  | truth test => exact h
  | void name arguments => cases bool

/-- The truth value of an expression, as the condition of another one or of a statement. -/
theorem Means.condition (h : typed.Means C σ o) (bool : typed.type = .bool) :
    Refines Eq (o >>= Value.truth) (typed.test.eval C σ) := by
  refine (h.test bool).bind_left fun v b same => ?_
  subst same
  exact .pure rfl

theorem means_read {v : Value} {type : Ty} {place : Place} (h : v.Kept type (.word (σ place))) :
    (read type place).Means C σ (pure v) := by
  unfold read
  split
  · rename_i bool
    subst bool
    obtain ⟨b, rfl, kept⟩ := h.exists_bool
    have same : (σ place != 0) = b := by
      rw [Scalar.word.inj kept]
      cases b <;> rfl
    exact .pure (congrArg Value.bool same.symm)
  · rename_i notBool
    exact ⟨notBool, .pure h⟩

variable {S : Setting} {parameters : List Ty}

theorem means_call {name : String} {returnType : Ty} {arguments : Arguments}
    {values : Outcome (List Value)} (agrees : S.Agrees C name returnType parameters)
    (all : Refines (fun vs cs => Value.Passed vs parameters cs) values (arguments.eval C σ)) :
    (call returnType name arguments).Means C σ (values >>= S.call name) := by
  have result := all.bind agrees.call
  unfold call
  split
  · rename_i void
    subst void
    refine result.imp fun v r related => ?_
    obtain ⟨type, rfl⟩ := related
    cases v with
    | void => exact ⟨rfl, rfl⟩
    | int | byte | bool | string => cases type
  · rename_i notVoid
    -- A function that does not return nothing returns a value.
    have value : Refines (fun v c => v.Kept returnType c) (values >>= S.call name)
        (arguments.eval C σ >>= C.call name >>= Outcome.ofOption) := by
      refine result.bind_right fun v r related => ?_
      obtain ⟨rfl, rfl⟩ := related
      cases v with
      | void => exact absurd rfl notVoid
      | int | byte | bool | string => exact .pure ⟨rfl, rfl⟩
    rw [bind_assoc] at value
    split
    · rename_i bool
      subst bool
      have truth : Refines (fun v b => v = .bool b) (values >>= S.call name)
          (arguments.eval C σ >>= (fun cs => C.call name cs >>= Outcome.ofOption) >>= fun c =>
            c.number >>= fun w => pure (w != 0)) := by
        refine value.bind_right fun v c kept => ?_
        obtain ⟨b, rfl, rfl⟩ := kept.exists_bool
        cases b <;> exact .pure rfl
      simp only [bind_assoc] at truth
      exact truth
    · rename_i notBool
      exact ⟨notBool, value⟩

/-- The cast between types of which one includes the other is checked. -/
theorem means_cast {operand : Typed} {target : Ty} (h : operand.Means C σ o)
    (fits : ((operand.type.isNumeric && target.isNumeric) ||
      (operand.type == target && !target.isSpecial)) = true) :
    (cast target operand).Means C σ (do return (← o).convert target) := by
  unfold cast
  split
  · rename_i bool
    subst bool
    have source : operand.type = .bool := by
      simp only [Ty.isNumeric, Bool.and_false, Bool.false_or, Bool.and_eq_true, beq_iff_eq] at fits
      exact fits.1
    refine (h.test source).bind_left fun v b same => ?_
    subst same
    exact .pure rfl
  · rename_i notBool
    have notVoid : operand.type ≠ .void := by
      intro void
      rw [void] at fits
      cases target <;> cases fits
    split
    · rename_i cut
      obtain ⟨int, rfl⟩ := cut
      refine ⟨notBool, (h.term notVoid).bind fun v c kept => ?_⟩
      have numeric : v.type.isNumeric = true := by
        rw [kept.type, int]
        rfl
      obtain ⟨n, number, -, scalar⟩ := Value.exists_number numeric
      obtain rfl := Option.some.inj (scalar.symm.trans kept.scalar)
      rw [Value.convert_of_number number rfl]
      exact .pure ⟨Value.type_ofNumber rfl n, Value.scalar?_ofNumber .byte n⟩
    · rename_i notCut
      have converts := Ty.convertibleTo_of_cast fits notCut
      exact ⟨notBool, (h.term notVoid).bind_left fun v c kept => .pure (kept.convert converts)⟩

theorem means_choice {condition thenValue elseValue : Typed} {c t f : Outcome Value}
    (hc : condition.Means C σ c) (bool : condition.type = .bool) (ht : thenValue.Means C σ t)
    (hf : elseValue.Means C σ f) (valid : Ty.castUp thenValue.type elseValue.type ≠ .invalid)
    (notVoid : Ty.castUp thenValue.type elseValue.type ≠ .void) :
    (choice (Ty.castUp thenValue.type elseValue.type) condition thenValue elseValue).Means C σ
      (do
        let b ← (← c).truth
        let value ← (if b then t else f)
        return value.convert (Ty.castUp thenValue.type elseValue.type)) := by
  have thenConverts := Ty.convertibleTo_castUp_left valid
  have elseConverts := Ty.convertibleTo_castUp_right valid
  rw [← bind_assoc]
  unfold choice
  split
  · rename_i isBool
    obtain ⟨thenBool, elseBool⟩ := Ty.castUp_eq_bool isBool
    rw [isBool]
    refine (hc.condition bool).bind fun b b' same => ?_
    subst same
    cases b with
    | true =>
      refine (ht.test thenBool).bind_left fun v b same => ?_
      subst same
      exact .pure rfl
    | false =>
      refine (hf.test elseBool).bind_left fun v b same => ?_
      subst same
      exact .pure rfl
  · rename_i notBool
    refine ⟨notBool, (hc.condition bool).bind fun b b' same => ?_⟩
    subst same
    cases b with
    | true =>
      exact (ht.term (Ty.ne_void_of_convertibleTo thenConverts notVoid)).bind_left
        fun v c kept => .pure (kept.convert thenConverts)
    | false =>
      exact (hf.term (Ty.ne_void_of_convertibleTo elseConverts notVoid)).bind_left
        fun v c kept => .pure (kept.convert elseConverts)

/-- The arguments have the same outcomes in the same order. -/
theorem means_arguments {store : Store} {xs : List Expr} {all : List Typed}
    (h : List.Forall₂ (fun x typed => Typed.Means C σ (Expr.eval S store x) typed) xs all)
    (fits : fit all parameters = true) (storable : ∀ type ∈ parameters, type ≠ .void) :
    Refines (fun vs cs => Value.Passed vs parameters cs) (Expr.evalAll S store xs)
      ((arguments all parameters).eval C σ) := by
  induction h generalizing parameters with
  | nil =>
    cases parameters with
    | nil => exact .pure trivial
    | cons type types => cases fits
  | @cons x typed xs all first rest ih =>
    cases parameters with
    | nil => cases fits
    | cons type types =>
      obtain ⟨converts, fits⟩ := Bool.and_eq_true_iff.mp fits
      obtain ⟨notVoid, storable⟩ := List.forall_mem_cons.mp storable
      refine (first.term (Ty.ne_void_of_convertibleTo converts notVoid)).bind fun v c kept => ?_
      exact (ih fits storable).bind fun vs cs passed => .pure ⟨kept.convert converts, passed⟩

end Typed

/-! ## Expressions -/

section Expressions

variable {e : Env} {S : Setting} {C : CoreSetting} {store : Store} {σ : Locals}

/-- The checker finds the type that the expression has when it is evaluated. -/
theorem Expr.Yields.typeIn (he : e.Reflects S C store σ) {x : Expr} {typed : Typed} :
    Expr.Yields e x typed → x.typeIn S store = typed.type
  | .int _ _ | .byte _ _ | .bool | .string | .not _ _ | .and _ _ _ _ | .or _ _ _ _ | .comparison _
    _ _ _ => rfl
  | .variable found | .parameter found => by
    obtain ⟨v, value, kept⟩ := he.places _ _ _ _ found rfl
    rw [Typed.type_read, Expr.typeIn, value]
    exact kept.type
  | .call all found fit => by
    rw [Typed.type_call]
    exact (he.functions _ _ _ found).result
  | .arithmetic left right _ _ => by
    rw [Expr.typeIn, left.typeIn he, right.typeIn he]
    rfl
  | .cast operand fits => (Typed.type_cast _ _).symm
  | .conditional condition isBool thenValue elseValue valid notVoid => by
    rw [Typed.type_choice, Expr.typeIn, thenValue.typeIn he, elseValue.typeIn he]

theorem ofInt_toInt_ofNat (n : Nat) : BitVec.ofInt 32 (Int32.ofNat n).toInt
    = BitVec.ofInt 32 n := by
  rw [BitVec.ofInt_natCast]
  exact BitVec.ofInt_toInt

theorem setWidth_ofNat (n : Nat) :
    (BitVec.ofInt 8 n).setWidth 32 = BitVec.ofInt 32 (UInt8.ofNat n).toNat := by
  rw [BitVec.ofInt_natCast, BitVec.ofInt_natCast]
  exact BitVec.eq_of_toNat_eq (by simp)

mutual

/-- An expression and the term that it becomes have the same outcome. -/
theorem Expr.Yields.means (he : e.Reflects S C store σ) {x : Expr} {typed : Typed} :
    Expr.Yields e x typed → typed.Means C σ (x.eval S store)
  | .int _ _ => by
    refine ⟨Ty.noConfusion, .pure ⟨rfl, ?_⟩⟩
    rw [ofInt_toInt_ofNat]
    rfl
  | .byte _ _ => by
    refine ⟨Ty.noConfusion, .pure ⟨rfl, ?_⟩⟩
    rw [← setWidth_ofNat]
    rfl
  | .bool => .pure rfl
  | .string => ⟨Ty.noConfusion, .pure ⟨rfl, rfl⟩⟩
  | .variable found | .parameter found => by
    obtain ⟨v, value, kept⟩ := he.places _ _ _ _ found rfl
    rw [Expr.eval, value]
    exact Typed.means_read kept
  | .call all found fit =>
    have function := he.functions _ _ _ found
    Typed.means_call function (Typed.means_arguments (all.means he) fit function.storable)
  | .not operand isBool => by
    rw [Expr.eval, ← bind_assoc]
    refine ((operand.means he).condition isBool).bind fun b b' same => ?_
    subst same
    exact .pure rfl
  | .and left right leftBool rightBool => by
    rw [Expr.eval, ← bind_assoc]
    refine ((left.means he).condition leftBool).bind fun b b' same => ?_
    subst same
    cases b with
    | true => exact (right.means he).test rightBool
    | false => exact .pure rfl
  | .or left right leftBool rightBool => by
    rw [Expr.eval, ← bind_assoc]
    refine ((left.means he).condition leftBool).bind fun b b' same => ?_
    subst same
    cases b with
    | true => exact .pure rfl
    | false => exact (right.means he).test rightBool
  | .arithmetic left right leftNumeric rightNumeric => by
    have numeric := Ty.isNumeric_castUp leftNumeric rightNumeric
    refine ⟨fun isBool => ?_, ?_⟩
    · rw [isBool] at numeric
      cases numeric
    rw [Expr.eval, Term.eval, he.overflow]
    refine (left.means he).bind_number (Ty.isSpecial_of_isNumeric leftNumeric) fun a x hx => ?_
    refine (right.means he).bind_number (Ty.isSpecial_of_isNumeric rightNumeric) fun b y hy => ?_
    rw [← hx.type, ← hy.type]
    exact (Arithmetic.refines _ _ (hx.type ▸ leftNumeric) (hy.type ▸ rightNumeric) hx.scalar
      hy.scalar).bind_right fun v w kept => .pure ⟨kept.1, kept.2⟩
  | .comparison left right leftNumeric rightNumeric => by
    rw [Expr.eval]
    refine (left.means he).bind_number (Ty.isSpecial_of_isNumeric leftNumeric) fun a x hx => ?_
    refine (right.means he).bind_number (Ty.isSpecial_of_isNumeric rightNumeric) fun b y hy => ?_
    rw [← hx.type, ← hy.type]
    exact Comparison.refines _ (hx.type ▸ leftNumeric) (hy.type ▸ rightNumeric) hx.scalar hy.scalar
  | .cast operand fits => Typed.means_cast (operand.means he) fits
  | .conditional condition isBool thenValue elseValue valid notVoid => by
    have meaning := Typed.means_choice (condition.means he) isBool (thenValue.means he)
      (elseValue.means he) valid notVoid
    rw [Expr.eval, Expr.typeIn, thenValue.typeIn he, elseValue.typeIn he]
    exact meaning

theorem Expr.YieldsAll.means (he : e.Reflects S C store σ) {xs : List Expr} {typed : List Typed} :
    Expr.YieldsAll e xs typed →
      List.Forall₂ (fun x typed => Typed.Means C σ (Expr.eval S store x) typed) xs typed
  | .nil => .nil
  | .cons first rest => .cons (first.means he) (rest.means he)

end

end Expressions

end Backpatch
