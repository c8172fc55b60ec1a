import Backpatch.Proofs.Code.History
import Backpatch.Proofs.Elaboration.Basic

/-!
# Rules of the elaboration

What the elaboration accepts, as rules: one for each kind of expression and statement, with the
conditions under which it is well typed and the core term that it becomes. Facts about elaborated
programs are proved by induction on these rules.
-/

namespace Backpatch

mutual

/-- The expression is well typed and becomes the typed term. -/
inductive Expr.Yields (e : Env) : Expr → Typed → Prop
  | int {l digits} (digit : Decimal.isDigits digits.toList = true)
      (range : Decimal.value digits.toList ≤ 2147483647) :
      Expr.Yields e (.literal l (.int digits))
        (.value .int (.number (Int32.ofNat (Decimal.value digits.toList)).toInt))
  | byte {l digits} (digit : Decimal.isDigits digits.toList = true)
      (range : Decimal.value digits.toList ≤ 255) :
      Expr.Yields e (.literal l (.byte digits))
        (.value .byte (.number (UInt8.ofNat (Decimal.value digits.toList)).toNat))
  | bool {l value} : Expr.Yields e (.literal l (.bool value)) (.truth (.constant value))
  | string {l text} : Expr.Yields e (.literal l (.string text)) (.value .string (.text text))
  | variable {l name type pointer offset}
      (found : e.get? name = some (.variable type pointer offset)) :
      Expr.Yields e (.identifier l name) (.read type (.variable pointer))
  | parameter {l name type index} (found : e.get? name = some (.parameter type index)) :
      Expr.Yields e (.identifier l name) (.read type (.parameter index))
  | call {l name arguments typed returnType parameters}
      (all : Expr.YieldsAll e arguments typed)
      (found : e.get? name = some (.function returnType parameters))
      (fit : Typed.fit typed parameters = true) :
      Expr.Yields e (.call l name arguments)
        (.call returnType name (Typed.arguments typed parameters))
  | not {l x tx} (operand : Expr.Yields e x tx) (bool : tx.type = .bool) :
      Expr.Yields e (.not l x) (.truth (.not tx.test))
  | and {l x y tx ty} (left : Expr.Yields e x tx) (right : Expr.Yields e y ty)
      (leftBool : tx.type = .bool) (rightBool : ty.type = .bool) :
      Expr.Yields e (.and l x y) (.truth (.and tx.test ty.test))
  | or {l x y tx ty} (left : Expr.Yields e x tx) (right : Expr.Yields e y ty)
      (leftBool : tx.type = .bool) (rightBool : ty.type = .bool) :
      Expr.Yields e (.or l x y) (.truth (.or tx.test ty.test))
  | arithmetic {l operator x y tx ty} (left : Expr.Yields e x tx) (right : Expr.Yields e y ty)
      (leftNumeric : tx.type.isNumeric = true) (rightNumeric : ty.type.isNumeric = true) :
      Expr.Yields e (.arithmetic l operator x y)
        (.value (Ty.castUp tx.type ty.type)
          (.arithmetic operator (Ty.castUp tx.type ty.type) tx.term ty.term))
  | comparison {l operator x y tx ty} (left : Expr.Yields e x tx) (right : Expr.Yields e y ty)
      (leftNumeric : tx.type.isNumeric = true) (rightNumeric : ty.type.isNumeric = true) :
      Expr.Yields e (.comparison l operator x y)
        (.truth (.compare (operator.predicate (Ty.castUp tx.type ty.type).isSigned)
          tx.term ty.term))
  | cast {l target x tx} (operand : Expr.Yields e x tx)
      (fits : ((tx.type.isNumeric && (Ty.ofName target).isNumeric) ||
        (tx.type == Ty.ofName target && !(Ty.ofName target).isSpecial)) = true) :
      Expr.Yields e (.cast l target x) (.cast (Ty.ofName target) tx)
  | conditional {l x y z tx ty tz} (condition : Expr.Yields e x tx) (bool : tx.type = .bool)
      (thenValue : Expr.Yields e y ty) (elseValue : Expr.Yields e z tz)
      (valid : Ty.castUp ty.type tz.type ≠ .invalid) (notVoid : Ty.castUp ty.type tz.type ≠ .void) :
      Expr.Yields e (.conditional l x y z) (.choice (Ty.castUp ty.type tz.type) tx ty tz)

inductive Expr.YieldsAll (e : Env) : List Expr → List Typed → Prop
  | nil : Expr.YieldsAll e [] []
  | cons {x xs tx txs} (first : Expr.Yields e x tx) (rest : Expr.YieldsAll e xs txs) :
      Expr.YieldsAll e (x :: xs) (tx :: txs)

end

/-- An expression that may be missing. -/
inductive Expr.YieldsOption (e : Env) : Option Expr → Option Typed → Prop
  | none : Expr.YieldsOption e none none
  | some {x tx} (value : Expr.Yields e x tx) : Expr.YieldsOption e (some x) (some tx)

/-! ## Success of the elaboration -/

variable {l : Location} {e : Env} {β : Type} {type : Ty} {holds : Bool} {name token : String}
  {largest : Nat} {x : Option Expr} {typed : Option Typed} {formals : List Builder.Formal}

theorem of_require_eq_ok {otherwise : SemanticError} {k : Unit → Except Failure β} {r : β}
    (h : (require holds otherwise >>= k) = .ok r) : holds = true ∧ k () = .ok r := by
  cases holds with
  | true => exact ⟨rfl, h⟩
  | false => exact absurd h nofun

theorem elaborateNumber_eq_ok {value : Nat} (h : elaborateNumber type token largest l = .ok value) :
    Decimal.isDigits token.toList = true ∧ Decimal.value token.toList ≤ largest ∧
      value = Decimal.value token.toList := by
  unfold elaborateNumber at h
  split at h
  · rename_i digits
    obtain ⟨range, h⟩ := of_require_eq_ok h
    exact ⟨digits, of_decide_eq_true range, (Except.ok.inj h).symm⟩
  · exact absurd h nofun

theorem Literal.yields {source : Literal} {typed : Typed} (h : source.elaborate l = .ok typed) :
    Expr.Yields e (.literal l source) typed := by
  cases source with
  | int digits =>
    obtain ⟨value, number, h⟩ := of_bind_eq_ok h
    obtain ⟨digit, range, rfl⟩ := elaborateNumber_eq_ok number
    cases h
    exact .int digit range
  | byte digits =>
    obtain ⟨value, number, h⟩ := of_bind_eq_ok h
    obtain ⟨digit, range, rfl⟩ := elaborateNumber_eq_ok number
    cases h
    exact .byte digit range
  | bool value =>
    cases h
    exact .bool
  | string text =>
    cases h
    exact .string

/-- A name that can be read and assigned. -/
theorem Env.resolve_eq_ok {place : Place} (h : e.resolve name l = .ok (place, type)) :
    (∃ pointer offset, place = .variable pointer ∧
      e.get? name = some (.variable type pointer offset)) ∨
      ∃ index, place = .parameter index ∧ e.get? name = some (.parameter type index) := by
  unfold Env.resolve at h
  split at h
  · rename_i found
    obtain ⟨rfl, rfl⟩ := Prod.mk.inj (Except.ok.inj h)
    exact .inl ⟨_, _, rfl, found⟩
  · rename_i found
    obtain ⟨rfl, rfl⟩ := Prod.mk.inj (Except.ok.inj h)
    exact .inr ⟨_, rfl, found⟩
  · exact absurd h nofun

mutual

theorem Expr.yields {e : Env} {typed : Typed} :
    ∀ {x : Expr}, x.elaborate e = .ok typed → Expr.Yields e x typed
  | .literal l value, h => Literal.yields h
  | .identifier l name, h => by
    unfold Expr.elaborate at h
    obtain ⟨⟨place, type⟩, resolved, h⟩ := of_bind_eq_ok h
    cases h
    rcases Env.resolve_eq_ok resolved with ⟨_, _, rfl, found⟩ | ⟨_, rfl, found⟩
    · exact .variable found
    · exact .parameter found
  | .call l name arguments, h => by
    unfold Expr.elaborate at h
    obtain ⟨typed, all, h⟩ := of_bind_eq_ok h
    split at h
    · rename_i found
      obtain ⟨fit, h⟩ := of_require_eq_ok h
      cases h
      exact .call (Expr.yieldsAll all) found fit
    · exact absurd h nofun
  | .not l operand, h => by
    unfold Expr.elaborate at h
    obtain ⟨tx, hx, h⟩ := of_bind_eq_ok h
    obtain ⟨bool, h⟩ := of_require_eq_ok h
    cases h
    exact .not (Expr.yields hx) (eq_of_beq bool)
  | .and l left right, h | .or l left right, h => by
    unfold Expr.elaborate at h
    obtain ⟨tx, hx, h⟩ := of_bind_eq_ok h
    obtain ⟨ty, hy, h⟩ := of_bind_eq_ok h
    obtain ⟨leftBool, h⟩ := of_require_eq_ok h
    obtain ⟨rightBool, h⟩ := of_require_eq_ok h
    cases h
    constructor
    · exact Expr.yields hx
    · exact Expr.yields hy
    · exact eq_of_beq leftBool
    · exact eq_of_beq rightBool
  | .arithmetic l operator left right, h | .comparison l operator left right, h => by
    unfold Expr.elaborate at h
    obtain ⟨tx, hx, h⟩ := of_bind_eq_ok h
    obtain ⟨ty, hy, h⟩ := of_bind_eq_ok h
    obtain ⟨leftNumeric, h⟩ := of_require_eq_ok h
    obtain ⟨rightNumeric, h⟩ := of_require_eq_ok h
    cases h
    constructor
    · exact Expr.yields hx
    · exact Expr.yields hy
    · exact leftNumeric
    · exact rightNumeric
  | .cast l target operand, h => by
    unfold Expr.elaborate at h
    obtain ⟨tx, hx, h⟩ := of_bind_eq_ok h
    obtain ⟨fits, h⟩ := of_require_eq_ok h
    cases h
    exact .cast (Expr.yields hx) fits
  | .conditional l condition thenValue elseValue, h => by
    unfold Expr.elaborate at h
    obtain ⟨tx, hx, h⟩ := of_bind_eq_ok h
    obtain ⟨bool, h⟩ := of_require_eq_ok h
    obtain ⟨ty, hy, h⟩ := of_bind_eq_ok h
    obtain ⟨tz, hz, h⟩ := of_bind_eq_ok h
    obtain ⟨common, h⟩ := of_require_eq_ok h
    cases h
    rw [Bool.and_eq_true, bne_iff_ne, bne_iff_ne] at common
    exact .conditional (Expr.yields hx) (eq_of_beq bool) (Expr.yields hy) (Expr.yields hz) common.1
      common.2

theorem Expr.yieldsAll {e : Env} {typed : List Typed} :
    ∀ {xs : List Expr}, Expr.elaborateAll e xs = .ok typed → Expr.YieldsAll e xs typed
  | [], h => by
    unfold Expr.elaborateAll at h
    cases h
    exact .nil
  | x :: xs, h => by
    unfold Expr.elaborateAll at h
    obtain ⟨tx, hx, h⟩ := of_bind_eq_ok h
    obtain ⟨txs, hxs, h⟩ := of_bind_eq_ok h
    cases h
    exact .cons (Expr.yields hx) (Expr.yieldsAll hxs)

end

theorem Expr.yieldsOption (h : Expr.elaborateOption e x = .ok typed) :
    Expr.YieldsOption e x typed := by
  cases x with
  | none =>
    cases h
    exact .none
  | some x =>
    obtain ⟨tx, hx, h⟩ := of_bind_eq_ok h
    cases h
    exact .some (Expr.yields hx)

/-! ## Statements -/

mutual

/-- The statement is well typed and becomes the action, with the environment and the layout after
it. -/
inductive Stmt.Yields : Stmt → Env → Layout → Action → Env → Layout → Prop
  | declaration {l type name x tx e layout} (value : Expr.YieldsOption e x tx)
      (storable : (Ty.ofName type).isSpecial = false)
      (converts : Typed.converts tx (Ty.ofName type) = true) (free : e.declares name = false) :
      Stmt.Yields (.declaration l type name x) e layout
        (.declare e.nextSlot layout.registers (tx.map Typed.term))
        (e.addVariable name (Ty.ofName type) layout.registers) (layout.addVariable e.nextSlot)
  | assignment {l name x tx place type e layout} (value : Expr.Yields e x tx)
      (resolved : e.resolve name l = .ok (place, type))
      (converts : tx.type.convertibleTo type = true) :
      Stmt.Yields (.assignment l name x) e layout (.assign place tx.term) e (layout.assign place)
  | expression {l x tx e layout} (value : Expr.Yields e x tx) :
      Stmt.Yields (.expression l x) e layout tx.action e layout
  | when {l x tx s a e e' layout layout'} (condition : Expr.Yields e x tx) (bool : tx.type = .bool)
      (body : Stmt.Yields s (e.inner false) layout a e' layout') :
      Stmt.Yields (.conditional l x s none) e layout (.when tx.test a) e layout'
  | either {l x tx s a s' a' e e' e'' layout layout' layout''} (condition : Expr.Yields e x tx)
      (bool : tx.type = .bool) (thenBranch : Stmt.Yields s (e.inner false) layout a e' layout')
      (elseBranch : Stmt.Yields s' (e.inner false) layout' a' e'' layout'') :
      Stmt.Yields (.conditional l x s (some s')) e layout (.either tx.test a a') e layout''
  | loop {l x tx s a e e' layout layout'} (condition : Expr.Yields e x tx) (bool : tx.type = .bool)
      (body : Stmt.Yields s (e.inner true) layout a e' layout') :
      Stmt.Yields (.loop l x s) e layout (.loop tx.test a) e layout'
  | break {l e layout} (inLoop : e.inLoop = true) : Stmt.Yields (.break l) e layout .break e layout
  | continue {l e layout} (inLoop : e.inLoop = true) :
      Stmt.Yields (.continue l) e layout .continue e layout
  | return {l x tx e layout} (value : Expr.YieldsOption e x tx)
      (fits : Typed.returnFits e.returnType tx = true) :
      Stmt.Yields (.return l x) e layout (.return (tx.map Typed.term)) e layout
  | block {l ss as e e' layout layout'} (body : Stmt.YieldsAll ss (e.inner false) layout as
      e' layout') : Stmt.Yields (.block l ss) e layout (.block as) e layout'

inductive Stmt.YieldsAll : List Stmt → Env → Layout → Actions → Env → Layout → Prop
  | nil {e layout} : Stmt.YieldsAll [] e layout .nil e layout
  | cons {s ss a as e e' e'' layout layout' layout''} (first : Stmt.Yields s e layout a e' layout')
      (rest : Stmt.YieldsAll ss e' layout' as e'' layout'') :
      Stmt.YieldsAll (s :: ss) e layout (.cons a as) e'' layout''

end

mutual

theorem Stmt.yields {e e' : Env} {layout layout' : Layout} {a : Action} :
    ∀ {s : Stmt}, s.elaborate e layout = .ok (a, e', layout') → Stmt.Yields s e layout a e' layout'
  | .declaration l type name x, h => by
    unfold Stmt.elaborate at h
    obtain ⟨tx, hx, h⟩ := of_bind_eq_ok h
    obtain ⟨storable, h⟩ := of_require_eq_ok h
    obtain ⟨converts, h⟩ := of_require_eq_ok h
    obtain ⟨free, h⟩ := of_require_eq_ok h
    cases h
    exact .declaration (Expr.yieldsOption hx) (Bool.not_eq_true' _ ▸ storable) converts
      (Bool.not_eq_true' _ ▸ free)
  | .assignment l name x, h => by
    unfold Stmt.elaborate at h
    obtain ⟨tx, hx, h⟩ := of_bind_eq_ok h
    obtain ⟨⟨place, type⟩, resolved, h⟩ := of_bind_eq_ok h
    obtain ⟨converts, h⟩ := of_require_eq_ok h
    cases h
    exact .assignment (Expr.yields hx) resolved converts
  | .expression l x, h => by
    unfold Stmt.elaborate at h
    obtain ⟨tx, hx, h⟩ := of_bind_eq_ok h
    cases h
    exact .expression (Expr.yields hx)
  | .conditional l x s none, h => by
    unfold Stmt.elaborate Stmt.elaborateElse at h
    obtain ⟨tx, hx, h⟩ := of_bind_eq_ok h
    obtain ⟨bool, h⟩ := of_require_eq_ok h
    obtain ⟨⟨a, e', layout'⟩, hs, h⟩ := of_bind_eq_ok h
    cases h
    exact .when (Expr.yields hx) (eq_of_beq bool) (Stmt.yields hs)
  | .conditional l x s (some s'), h => by
    unfold Stmt.elaborate Stmt.elaborateElse at h
    obtain ⟨tx, hx, h⟩ := of_bind_eq_ok h
    obtain ⟨bool, h⟩ := of_require_eq_ok h
    obtain ⟨⟨a, e', layout'⟩, hs, h⟩ := of_bind_eq_ok h
    obtain ⟨⟨other, layout''⟩, helse, h⟩ := of_bind_eq_ok h
    obtain ⟨⟨a', e'', _⟩, hs', helse⟩ := of_bind_eq_ok helse
    cases helse
    cases h
    exact .either (Expr.yields hx) (eq_of_beq bool) (Stmt.yields hs) (Stmt.yields hs')
  | .loop l x s, h => by
    unfold Stmt.elaborate at h
    obtain ⟨tx, hx, h⟩ := of_bind_eq_ok h
    obtain ⟨bool, h⟩ := of_require_eq_ok h
    obtain ⟨⟨a, e', layout'⟩, hs, h⟩ := of_bind_eq_ok h
    cases h
    exact .loop (Expr.yields hx) (eq_of_beq bool) (Stmt.yields hs)
  | .break l, h | .continue l, h => by
    unfold Stmt.elaborate at h
    obtain ⟨inLoop, h⟩ := of_require_eq_ok h
    cases h
    constructor
    exact inLoop
  | .return l x, h => by
    unfold Stmt.elaborate at h
    obtain ⟨tx, hx, h⟩ := of_bind_eq_ok h
    obtain ⟨fits, h⟩ := of_require_eq_ok h
    cases h
    exact .return (Expr.yieldsOption hx) fits
  | .block l ss, h => by
    unfold Stmt.elaborate at h
    obtain ⟨⟨as, e', layout'⟩, hss, h⟩ := of_bind_eq_ok h
    cases h
    exact .block (Stmt.yieldsAll hss)

theorem Stmt.yieldsAll {e e' : Env} {layout layout' : Layout} {as : Actions} :
    ∀ {ss : List Stmt}, Stmt.elaborateAll ss e layout = .ok (as, e', layout') →
      Stmt.YieldsAll ss e layout as e' layout'
  | [], h => by
    unfold Stmt.elaborateAll at h
    cases h
    exact .nil
  | s :: ss, h => by
    unfold Stmt.elaborateAll at h
    obtain ⟨⟨a, e', layout'⟩, hs, h⟩ := of_bind_eq_ok h
    obtain ⟨⟨as, e'', layout''⟩, hss, h⟩ := of_bind_eq_ok h
    cases h
    exact .cons (Stmt.yields hs) (Stmt.yieldsAll hss)

end

/-! ## Completeness of the rules -/

theorem ok_bind {α : Type} {m : Except Failure α} {a : α} (h : m = .ok a)
    (k : α → Except Failure β) : (m >>= k) = k a := by
  rw [h]
  rfl

theorem require_bind (h : holds = true) (otherwise : SemanticError) (k : Unit → Except Failure β) :
    (require holds otherwise >>= k) = k () := by
  rw [h]
  rfl

theorem elaborateNumber_of_le (digits : Decimal.isDigits token.toList = true)
    (range : Decimal.value token.toList ≤ largest) :
    elaborateNumber type token largest l = .ok (Decimal.value token.toList) := by
  unfold elaborateNumber
  rw [if_pos digits, require_bind (decide_eq_true range)]
  rfl

mutual

theorem Expr.Yields.elaborate {e : Env} {x : Expr} {typed : Typed} :
    Expr.Yields e x typed → x.elaborate e = .ok typed
  | .int digit range | .byte digit range => by
    unfold Expr.elaborate
    exact ok_bind (elaborateNumber_of_le digit range) _
  | .bool | .string => by
    unfold Expr.elaborate
    rfl
  | .variable found | .parameter found => by
    unfold Expr.elaborate Env.resolve
    rw [found]
    rfl
  | .call all found fit => by
    unfold Expr.elaborate
    rw [ok_bind all.elaborate, found]
    dsimp only
    rw [require_bind fit]
    rfl
  | .not operand bool => by
    unfold Expr.elaborate
    rw [ok_bind operand.elaborate, require_bind (beq_iff_eq.mpr bool)]
    rfl
  | .and left right leftBool rightBool | .or left right leftBool rightBool => by
    unfold Expr.elaborate
    rw [ok_bind left.elaborate, ok_bind right.elaborate, require_bind (beq_iff_eq.mpr leftBool),
      require_bind (beq_iff_eq.mpr rightBool)]
    rfl
  | .arithmetic left right leftNumeric rightNumeric | .comparison left right leftNumeric
      rightNumeric => by
    unfold Expr.elaborate
    rw [ok_bind left.elaborate, ok_bind right.elaborate, require_bind leftNumeric,
      require_bind rightNumeric]
    rfl
  | .cast operand fits => by
    unfold Expr.elaborate
    dsimp only
    rw [ok_bind operand.elaborate, require_bind fits]
    rfl
  | .conditional condition bool thenValue elseValue valid notVoid => by
    unfold Expr.elaborate
    have common := Bool.and_eq_true_iff.mpr ⟨bne_iff_ne.mpr valid, bne_iff_ne.mpr notVoid⟩
    dsimp only
    rw [ok_bind condition.elaborate, require_bind (beq_iff_eq.mpr bool),
      ok_bind thenValue.elaborate, ok_bind elseValue.elaborate, require_bind common]
    rfl

theorem Expr.YieldsAll.elaborate {e : Env} {xs : List Expr} {typed : List Typed} :
    Expr.YieldsAll e xs typed → Expr.elaborateAll e xs = .ok typed
  | .nil => by
    unfold Expr.elaborateAll
    rfl
  | .cons first rest => by
    unfold Expr.elaborateAll
    rw [ok_bind first.elaborate, ok_bind rest.elaborate]
    rfl

end

theorem Expr.YieldsOption.elaborate (h : Expr.YieldsOption e x typed) :
    Expr.elaborateOption e x = .ok typed := by
  cases h with
  | none => rfl
  | some value => exact ok_bind value.elaborate _

mutual

theorem Stmt.Yields.elaborate {s : Stmt} {e e' : Env} {layout layout' : Layout} {a : Action} :
    Stmt.Yields s e layout a e' layout' → s.elaborate e layout = .ok (a, e', layout')
  | .declaration value storable converts free => by
    unfold Stmt.elaborate
    dsimp only
    rw [ok_bind value.elaborate, require_bind (by rw [storable]; rfl), require_bind converts,
      require_bind (by rw [free]; rfl)]
    rfl
  | .assignment value resolved converts => by
    unfold Stmt.elaborate
    rw [ok_bind value.elaborate, ok_bind resolved]
    dsimp only
    rw [require_bind converts]
    rfl
  | .expression value => by
    unfold Stmt.elaborate
    exact ok_bind value.elaborate _
  | .when condition bool body => by
    unfold Stmt.elaborate Stmt.elaborateElse
    dsimp only
    rw [ok_bind condition.elaborate, require_bind (beq_iff_eq.mpr bool), ok_bind body.elaborate]
    rfl
  | .either condition bool thenBranch elseBranch => by
    unfold Stmt.elaborate Stmt.elaborateElse
    dsimp only
    rw [ok_bind condition.elaborate, require_bind (beq_iff_eq.mpr bool),
      ok_bind thenBranch.elaborate]
    dsimp only
    rw [ok_bind elseBranch.elaborate]
    rfl
  | .loop condition bool body => by
    unfold Stmt.elaborate
    dsimp only
    rw [ok_bind condition.elaborate, require_bind (beq_iff_eq.mpr bool), ok_bind body.elaborate]
    rfl
  | .break inLoop | .continue inLoop => by
    unfold Stmt.elaborate
    exact require_bind inLoop _ _
  | .return value fits => by
    unfold Stmt.elaborate
    rw [ok_bind value.elaborate, require_bind fits]
    rfl
  | .block body => by
    unfold Stmt.elaborate
    exact ok_bind body.elaborate _

theorem Stmt.YieldsAll.elaborate {ss : List Stmt} {e e' : Env} {layout layout' : Layout}
    {as : Actions} :
    Stmt.YieldsAll ss e layout as e' layout' → Stmt.elaborateAll ss e layout = .ok (as, e', layout')
  | .nil => by
    unfold Stmt.elaborateAll
    rfl
  | .cons first rest => by
    unfold Stmt.elaborateAll
    rw [ok_bind first.elaborate]
    dsimp only
    rw [ok_bind rest.elaborate]
    rfl

end

/-! ## Heads of functions -/

theorem requireFormals_eq_ok (h : requireFormals formals = .ok ()) :
    ∀ p ∈ formals, p.type.isSpecial = false := by
  induction formals with
  | nil => nofun
  | cons p ps ih =>
    obtain ⟨storable, rest⟩ := of_require_eq_ok h
    intro q hq
    rcases List.mem_cons.mp hq with rfl | hq
    · exact Bool.not_eq_true' _ ▸ storable
    · exact ih rest q hq

theorem of_elaborateHead_eq_ok {returnType : Ty} {globals : List (String × Meaning)}
    (h : elaborateHead name returnType formals l globals = .ok e) :
    (returnType != .string && returnType != .invalid) = true ∧
      (∀ p ∈ formals, p.type.isSpecial = false) ∧ globals.lookup name = none ∧
      bindFormals formals 0
        { outer := (name, .function returnType (formals.map Builder.Formal.type)) :: globals
          returnType := returnType } = .ok e := by
  obtain ⟨result, h⟩ := of_require_eq_ok h
  obtain ⟨⟨⟩, checked, h⟩ := of_bind_eq_ok h
  obtain ⟨free, bound⟩ := of_require_eq_ok h
  exact ⟨result, requireFormals_eq_ok checked, Option.isNone_iff_eq_none.mp free, bound⟩

/-! ## Growth of the layout -/

/-- Registers and places are only added. -/
structure Layout.Grows (layout layout' : Layout) : Prop where
  registers : layout.registers ≤ layout'.registers
  frameSize : layout.frameSize ≤ layout'.frameSize
  length : layout'.slots.length = layout.slots.length
  kept : ∀ (i r : Nat), layout.slots[i]? = some (some r) → layout'.slots[i]? = some (some r)
  new : ∀ (i r : Nat), layout'.slots[i]? = some (some r) →
    layout.slots[i]? = some (some r) ∨ (layout.registers ≤ r ∧ r < layout'.registers)

namespace Layout.Grows

theorem refl (layout : Layout) : layout.Grows layout :=
  ⟨Nat.le_refl _, Nat.le_refl _, rfl, fun _ _ h => h, fun _ _ h => .inl h⟩

theorem trans {a b c : Layout} (ab : a.Grows b) (bc : b.Grows c) : a.Grows c where
  registers := Nat.le_trans ab.registers bc.registers
  frameSize := Nat.le_trans ab.frameSize bc.frameSize
  length := bc.length.trans ab.length
  kept i r h := bc.kept i r (ab.kept i r h)
  new i r h := by
    rcases bc.new i r h with h | ⟨low, high⟩
    · exact (ab.new i r h).imp_right fun ⟨low, high⟩ => ⟨low, Nat.lt_of_lt_of_le high bc.registers⟩
    · exact .inr ⟨Nat.le_trans ab.registers low, high⟩

theorem addVariable (layout : Layout) (slot : Nat) : layout.Grows (layout.addVariable slot) :=
  ⟨Nat.le_succ _, Nat.le_max_left _ _, rfl, fun _ _ h => h, fun _ _ h => .inl h⟩

theorem spill (layout : Layout) (index : Nat) : layout.Grows (layout.spill index) := by
  unfold Layout.spill
  split
  · rename_i free
    refine ⟨Nat.le_succ _, Nat.le_refl _, List.length_set, ?_, ?_⟩
    · intro i r h
      have ne : index ≠ i := by
        rintro rfl
        rw [free] at h
        exact absurd h nofun
      exact (List.getElem?_set_ne ne).trans h
    · intro i r h
      by_cases eq : index = i
      · subst eq
        have range : index < layout.slots.length := (List.getElem?_eq_some_iff.mp free).1
        have new : some (some layout.registers) = some (some r) :=
          (List.getElem?_set_self range).symm.trans h
        obtain rfl := Option.some.inj (Option.some.inj new)
        exact .inr ⟨Nat.le_refl _, Nat.lt_succ_self _⟩
      · exact .inl ((List.getElem?_set_ne eq).symm.trans h)
  · exact .refl layout

theorem assign (layout : Layout) (place : Place) : layout.Grows (layout.assign place) := by
  cases place with
  | «variable» pointer => exact .refl layout
  | parameter index => exact .spill layout index

end Layout.Grows

mutual

theorem Stmt.Yields.grows {s : Stmt} {e e' : Env} {layout layout' : Layout} {a : Action} :
    Stmt.Yields s e layout a e' layout' → layout.Grows layout' ∧ e'.returnType = e.returnType
  | .declaration .. => ⟨.addVariable _ _, rfl⟩
  | .assignment .. => ⟨.assign _ _, rfl⟩
  | .expression .. | .break _ | .continue _ | .return .. => ⟨.refl _, rfl⟩
  | .when _ _ body | .loop _ _ body | .block body => ⟨body.grows.1, rfl⟩
  | .either _ _ thenBranch elseBranch =>
    ⟨thenBranch.grows.1.trans elseBranch.grows.1, rfl⟩

theorem Stmt.YieldsAll.grows {ss : List Stmt} {e e' : Env} {layout layout' : Layout}
    {as : Actions} :
    Stmt.YieldsAll ss e layout as e' layout' → layout.Grows layout' ∧ e'.returnType = e.returnType
  | .nil => ⟨.refl _, rfl⟩
  | .cons first rest =>
    ⟨first.grows.1.trans rest.grows.1, rest.grows.2.trans first.grows.2⟩

end

/-! ## Functions one after the other -/

/-- A function as the functions after it see it. -/
def Routine.entry (f : Routine) : String × Meaning := (f.name, .function f.returnType f.parameters)

theorem Routine.lookup_entry {f : Routine} {globals : List (String × Meaning)} {m : Meaning}
    (h : (f.entry :: globals).lookup name = some m) :
    (name = f.name ∧ m = .function f.returnType f.parameters) ∨ globals.lookup name = some m := by
  unfold Routine.entry at h
  rw [List.lookup_cons] at h
  split at h
  · rename_i same
    exact .inl ⟨eq_of_beq same, (Option.some.inj h).symm⟩
  · exact .inr h

/-- What is known of a function when its head has been accepted. -/
structure FunctionDef.Declares (f : FunctionDef) (globals : List (String × Meaning)) (r : Routine) :
    Prop where
  name : r.name = f.name
  result : r.returnType = Ty.ofName f.returnType
  parameters : r.parameters = (f.parameters.map Parameter.formal).map Builder.Formal.type
  free : globals.lookup r.name = none
  returned : (Ty.ofName f.returnType != .string && Ty.ofName f.returnType != .invalid) = true
  storable : ∀ p ∈ f.parameters.map Parameter.formal, p.type.isSpecial = false

theorem FunctionDef.elaborate_declares {f : FunctionDef}
    {globals globals' : List (String × Meaning)} {registers registers' : Nat} {r : Routine}
    (h : f.elaborate globals registers = .ok (r, globals', registers')) :
    globals' = r.entry :: globals ∧ f.Declares globals r := by
  obtain ⟨e, head, h⟩ := of_bind_eq_ok h
  obtain ⟨⟨as, e', layout⟩, -, h⟩ := of_bind_eq_ok h
  cases h
  obtain ⟨returned, storable, free, -⟩ := of_elaborateHead_eq_ok head
  exact ⟨rfl, rfl, rfl, rfl, free, returned, storable⟩

/-- Functions are elaborated one after the other, each behind the names of those before it. -/
inductive FunctionDef.YieldsAll : List FunctionDef → List (String × Meaning) → Nat →
    List Routine → List (String × Meaning) → Nat → Prop
  | nil {globals registers} : YieldsAll [] globals registers [] globals registers
  | cons {f fs globals registers r registers₁ rs last registers'}
      (first : f.elaborate globals registers = .ok (r, r.entry :: globals, registers₁))
      (declares : f.Declares globals r)
      (rest : YieldsAll fs (r.entry :: globals) registers₁ rs last registers') :
      YieldsAll (f :: fs) globals registers (r :: rs) last registers'

theorem FunctionDef.yieldsAll {fs : List FunctionDef} {globals last : List (String × Meaning)}
    {registers registers' : Nat} {rs : List Routine}
    (h : FunctionDef.elaborateAll fs globals registers = .ok (rs, last, registers')) :
    FunctionDef.YieldsAll fs globals registers rs last registers' := by
  induction fs generalizing globals registers rs with
  | nil =>
    cases h
    exact .nil
  | cons f fs ih =>
    obtain ⟨⟨r, globals₁, registers₁⟩, first, h⟩ := of_bind_eq_ok h
    obtain ⟨⟨rs₁, _, _⟩, rest, h⟩ := of_bind_eq_ok h
    cases h
    obtain ⟨rfl, declares⟩ := f.elaborate_declares first
    exact .cons first declares (ih rest)

/-- A name that is taken keeps its meaning, and no function is called so. -/
theorem FunctionDef.YieldsAll.taken {fs : List FunctionDef} {globals last : List (String × Meaning)}
    {registers registers' : Nat} {rs : List Routine}
    (h : FunctionDef.YieldsAll fs globals registers rs last registers') {m : Meaning}
    (found : globals.lookup name = some m) :
    last.lookup name = some m ∧ ∀ f ∈ fs, f.name ≠ name := by
  induction h with
  | nil => exact ⟨found, List.forall_mem_nil _⟩
  | @cons f _ globals _ r _ _ _ _ _ declares _ ih =>
    -- The name of the function was free, so it hides nothing.
    have other : r.name ≠ name := by
      rintro rfl
      rw [declares.free] at found
      cases found
    have found' : (r.entry :: globals).lookup name = some m := by
      unfold Routine.entry
      rw [List.lookup_cons, beq_eq_false_iff_ne.mpr other.symm]
      exact found
    obtain ⟨kept, others⟩ := ih found'
    exact ⟨kept, List.forall_mem_cons.mpr ⟨declares.name ▸ other, others⟩⟩

/-- A program is accepted if its functions are, with the entry point among them. -/
theorem Program.of_elaborate_eq_ok {p : Program} {routines : List Routine} {registers : Nat}
    (h : p.elaborate = .ok (routines, registers)) : ∃ last,
      FunctionDef.YieldsAll p.functions runtimeNames 0 routines last registers ∧
        last.lookup "main" = some (.function .void []) := by
  obtain ⟨⟨_, last, _⟩, all, h⟩ := of_bind_eq_ok h
  obtain ⟨entry, h⟩ := of_require_eq_ok h
  cases h
  exact ⟨last, FunctionDef.yieldsAll all, eq_of_beq entry⟩

end Backpatch
