import Backpatch.Proofs.Elaboration.Follows

/-!
# Trees of expressions

The building of an expression follows its elaboration: it fails with the same error, or makes a node
that stands for the elaborated expression and leaves everything but the forest as it was.
-/

namespace Backpatch

/-! ## Environments and symbol tables -/

/-- The symbol that the meaning of a name is kept as. -/
def Meaning.symbol (name : String) : Meaning → Symbol
  | .variable type pointer offset => ⟨name, type, offset, .variable (.temp pointer)⟩
  | .parameter type index => ⟨name, type, -(index : Int) - 1, .parameter⟩
  | .function returnType parameters => ⟨name, returnType, 0, .function parameters⟩

/-- Types of variables and parameters can be stored, a function returns something that has a
representation and is no text, and its parameters are values. -/
def Meaning.Sound : Meaning → Prop
  | .variable type _ _ | .parameter type _ => type.isSpecial = false
  | .function returnType parameters =>
    returnType ≠ .string ∧ returnType ≠ .invalid ∧ ∀ type ∈ parameters, type ≠ .void ∧
      type ≠ .invalid

/-- The environment says of the names what the open scopes say. -/
structure Env.Matches (e : Env) (t : SymbolTable) : Prop where
  get : ∀ name, t.get? name = (e.get? name).map (Meaning.symbol name)
  sound : ∀ name m, e.get? name = some m → m.Sound
  indexed : t.current.Indexed
  declares : ∀ name, t.current.contains name = e.declares name
  inLoop : t.inLoop = e.inLoop
  nextSlot : t.current.nextSlot = e.nextSlot

/-! ## Nodes of elaborated expressions -/

/-- The node stands for the elaborated expression. -/
def Typed.Of : Typed → Node → Prop
  | .value type term, n =>
    term.Of n ∧ n.type? = some type ∧ term.isNumeral = true ∧ type ≠ .bool ∧ type ≠ .void
  | .truth test, n => test.Of n
  | .void name arguments, n => ∃ id l parameters nodes,
    n = .mk id l (.expression .void (.call name parameters)) nodes ∧ arguments.Of nodes parameters

variable {n : Node} {a b type : Ty} {typed : Typed}

theorem Typed.of_truth {test : Test} (h : test.Of n) : (Typed.truth test).Of n := h

theorem Typed.Of.type? (h : typed.Of n) : n.type? = some typed.type := by
  cases typed with
  | value type term => exact h.2.1
  | truth test => exact Test.Of.type? h
  | void name arguments =>
    obtain ⟨_, _, _, _, rfl, _⟩ := h
    rfl

theorem Typed.Of.term (h : typed.Of n) (hv : typed.type ≠ .void) : typed.term.Of n := by
  cases typed with
  | value type term => exact h.1
  | truth test => exact .truth h
  | void name arguments => exact absurd rfl hv

theorem Typed.Of.test (h : typed.Of n) (hb : typed.type = .bool) : typed.test.Of n := by
  cases typed with
  | value type term => exact absurd hb h.2.2.2.1
  | truth test => exact h
  | void name arguments => exact absurd hb nofun

/-- The nodes stand for the elaborated expressions, each in its place. -/
abbrev Typed.OfAll := List.Forall₂ Typed.Of

theorem Ty.ir?_eq (h : type ≠ .invalid) : type.ir? = some type.ir := by
  cases type <;> first | rfl | exact absurd rfl h

theorem Ty.ne_void_of_convertibleTo (h : a.convertibleTo b = true) (hb : b ≠ .void) :
    a ≠ .void := by
  rintro rfl
  cases b <;> first | exact absurd h (by decide) | exact hb rfl

theorem Ty.ne_void_of_isNumeric (h : type.isNumeric = true) : type ≠ .void := by
  rintro rfl
  cases h

theorem Ty.castUp_eq_bool (h : Ty.castUp a b = .bool) : a = .bool ∧ b = .bool := by
  revert h
  cases a <;> cases b <;> decide

theorem Ty.ne_void_of_castUp (h : Ty.castUp a b ≠ .invalid) (hv : Ty.castUp a b ≠ .void) :
    a ≠ .void ∧ b ≠ .void := by
  revert h hv
  cases a <;> cases b <;> decide

theorem Ty.castUp_of_isNumeric (ha : a.isNumeric = true) (hb : b.isNumeric = true) :
    Ty.castUp a b ≠ .bool ∧ Ty.castUp a b ≠ .void := by
  revert ha hb
  cases a <;> cases b <;> decide

theorem Ty.convertibleTo_of_cast {source target : Ty}
    (h : ((source.isNumeric && target.isNumeric) || (source == target && !target.isSpecial)) = true)
    (notCut : ¬(source = .int ∧ target = .byte)) : source.convertibleTo target = true := by
  cases source <;> cases target <;> first | rfl | exact absurd ⟨rfl, rfl⟩ notCut | cases h

theorem Typed.OfAll.arguments {args : List Typed} {nodes : List Node} (h : Typed.OfAll args nodes)
    {parameters : List Ty} (hs : ∀ type ∈ parameters, type ≠ .void ∧ type ≠ .invalid)
    (hfit : Typed.fit args parameters = true) :
    (Typed.arguments args parameters).Of nodes parameters := by
  induction h generalizing parameters with
  | nil =>
    cases parameters with
    | nil => exact .nil
    | cons type types => exact absurd hfit nofun
  | cons hn hns ih =>
    cases parameters with
    | nil => exact absurd hfit nofun
    | cons type types =>
      unfold Typed.fit at hfit
      rw [Bool.and_eq_true] at hfit
      have sound := hs type List.mem_cons_self
      exact .cons (Ty.ir?_eq sound.2) (hn.term (Ty.ne_void_of_convertibleTo hfit.1 sound.1))
        (ih (fun t mem => hs t (List.mem_cons_of_mem _ mem)) hfit.2)

namespace Builder

/-- Nothing but the forest has changed. -/
structure Same (b b' : Builder) : Prop where
  names : b'.names = b.names
  symbols : b'.symbols = b.symbols
  function : b'.function = b.function

theorem Same.refl (b : Builder) : Same b b := ⟨rfl, rfl, rfl⟩

theorem Same.trans {a b c : Builder} (ab : Same a b) (bc : Same b c) : Same a c :=
  ⟨bc.names.trans ab.names, bc.symbols.trans ab.symbols, bc.function.trans ab.function⟩

/-- An expression has been built since `b`. -/
structure Built (b : Builder) (l : Location) (n : Node) (b' : Builder) (typed : Typed) : Prop where
  ready : b.forest.Ready [n] b'.forest
  same : Same b b'
  location : n.location = l
  of : typed.Of n

/-- Expressions have been built since `b`, one after the other. -/
structure BuiltAll (b : Builder) (ns : List Node) (b' : Builder) (typed : List Typed) : Prop where
  ready : b.forest.Ready ns b'.forest
  same : Same b b'
  of : Typed.OfAll typed ns

section Steps

variable {α γ : Type} {k : Unit → BuildM α} {next : Unit → Except Failure γ}
  {R : α → Builder → γ → Prop} {b : Builder}

variable {type : Ty} {n : Node}

theorem Follows.expectType {expected : Ty} (hn : n.type? = some type) (l : Location)
    (hk : type = expected → Follows (k ()) b (next ()) R) :
    Follows (expectType n expected l >>= k) b (require (type == expected) (.typeMismatch l)
      >>= next) R := by
  unfold Builder.expectType
  rw [bind_assoc]
  refine Follows.step (run_typeOf hn b) (Follows.check fun h => hk ?_)
  exact eq_of_beq h

theorem Follows.expectNumeric (hn : n.type? = some type) (l : Location)
    (hk : type.isNumeric = true → Follows (k ()) b (next ()) R) :
    Follows (expectNumeric n l >>= k) b (require type.isNumeric (.typeMismatch l) >>= next) R := by
  unfold Builder.expectNumeric
  rw [bind_assoc]
  exact Follows.step (run_typeOf hn b) (Follows.check hk)

/-- A last step that is not part of the plan. -/
theorem Follows.andThen {β : Type} {step : BuildM β} {k : β → BuildM α} {plan : Except Failure γ}
    {S : β → Builder → γ → Prop} (h : Follows step b plan S)
    (hk : ∀ x b' y, S x b' y → Follows (k x) b' (.ok y) R) : Follows (step >>= k) b plan R := by
  have last : Follows (step >>= k) b (plan >>= fun y => .ok y) R :=
    h.bind fun x b' y _ fits => hk x b' y fits
  have same : (plan >>= fun y => .ok y) = plan := bind_pure plan
  rw [same] at last
  exact last

theorem follows_addExpression {start : Builder} {children : List Node}
    (ready : start.forest.Ready children b.forest) (same : Same start b) {kind : ExprKind}
    {l : Location}
    {typed : Typed} (of : ∀ id, typed.Of (.mk id l (.expression type kind) children)) :
    Follows (addExpression kind type l children) b (.ok typed) (Built start l) := by
  obtain ⟨id, f, ran, ready'⟩ := run_add ready (.expression type kind) l
  exact ⟨_, _, ran, ready', same.trans ⟨rfl, rfl, rfl⟩, rfl, of id⟩

end Steps

end Builder

/-! ## Expressions -/

open Builder

theorem Builder.follows_number (type : Ty) (token : String) (largest : Nat) (l : Location)
    (b : Builder) :
    Follows (number type token largest l) b (elaborateNumber type token largest l)
      fun value b' value' => value = value' ∧ b' = b := by
  unfold Builder.number elaborateNumber
  by_cases h : Decimal.isDigits token.toList = true
  · simp only [h, if_true]
    exact Follows.check fun _ => Follows.pure ⟨rfl, rfl⟩
  · simp only [h]
    exact follows_fault _ b _

theorem Literal.follows (source : Literal) (l : Location) (b : Builder) :
    Follows (literalValue l source) b (source.elaborate l) fun value b' typed =>
      (∀ id, typed.Of (.mk id l (.expression value.type (.literal value)) [])) ∧ b' = b := by
  cases source with
  | int digits | byte digits =>
    refine (follows_number _ _ _ l b).bind ?_
    rintro x b' y - ⟨rfl, rfl⟩
    exact Follows.pure ⟨fun id => ⟨.number rfl, rfl, rfl, Ty.noConfusion, Ty.noConfusion⟩, rfl⟩
  | bool value => exact Follows.pure ⟨fun id => Typed.of_truth .constant, rfl⟩
  | string text =>
    exact Follows.pure ⟨fun id => ⟨.text, rfl, rfl, Ty.noConfusion, Ty.noConfusion⟩, rfl⟩

section Cases

variable {e : Env} {b : Builder} {l : Location}

/-- A name is resolved as the environment says. -/
theorem Builder.follows_resolve (h : e.Matches b.symbols) (name : String) :
    Follows (resolve name l) b (e.resolve name l) fun found b' expected =>
      found = (expected.1.binding, expected.2) ∧ b' = b ∧ expected.2.isSpecial = false := by
  unfold Builder.resolve Env.resolve
  refine Follows.step (run_get b) ?_
  rw [h.get name]
  cases found : e.get? name with
  | none => exact follows_throw _ b _
  | some m =>
    have sound := h.sound name m found
    cases m with
    | «variable» type pointer offset => exact Follows.pure ⟨rfl, rfl, sound⟩
    | parameter type index =>
      simp only [Option.map_some, Meaning.symbol, Symbol.parameterIndex_eq]
      exact Follows.pure ⟨rfl, rfl, sound⟩
    | function returnType parameters => exact follows_throw _ b _

theorem Typed.of_read {type : Ty} (h : type.isSpecial = false) (place : Place) (name : String)
    (id : NodeId) :
    (Typed.read type place).Of (.mk id l (.expression type (.identifier name place.binding))
      []) := by
  unfold Typed.read
  by_cases hb : type = .bool
  · subst hb
    rw [if_pos rfl]
    exact Typed.of_truth .read
  · rw [if_neg hb]
    refine ⟨.read hb, rfl, rfl, hb, ?_⟩
    rintro rfl
    cases h

variable {nodes : List Node} {parameters : List Ty} {x : Node} {args : List Typed}

theorem Typed.of_call {returnType : Ty} (h : returnType ≠ .invalid) {name : String}
    {arguments : Arguments}
    (ha : arguments.Of nodes parameters) (id : NodeId) : (Typed.call returnType name arguments).Of
      (.mk id l (.expression returnType (.call name parameters)) nodes) := by
  unfold Typed.call
  by_cases hv : returnType = .void
  · subst hv
    rw [if_pos rfl]
    exact ⟨id, l, parameters, nodes, rfl, ha⟩
  · rw [if_neg hv]
    by_cases hb : returnType = .bool
    · subst hb
      rw [if_pos rfl]
      exact Typed.of_truth (.call ha)
    · rw [if_neg hb]
      exact ⟨.call hv hb (Ty.ir?_eq h) ha, rfl, rfl, hb, hv⟩

theorem Typed.of_cast {target : Ty} {operand : Typed} (hx : operand.Of x)
    (h : (operand.type.isNumeric && target.isNumeric) ||
      (operand.type == target && !target.isSpecial)) (id : NodeId) :
    (Typed.cast target operand).Of (.mk id l (.expression target (.cast target)) [x]) := by
  have fits : operand.type ≠ .void ∧ target ≠ .void ∧ (target = .bool → operand.type = .bool) := by
    rcases Bool.or_eq_true_iff.mp h with h | h
    · rw [Bool.and_eq_true] at h
      refine ⟨Ty.ne_void_of_isNumeric h.1, Ty.ne_void_of_isNumeric h.2, ?_⟩
      rintro rfl
      cases h.2
    · rw [Bool.and_eq_true] at h
      have same := eq_of_beq h.1
      have notVoid : target ≠ .void := by
        rintro rfl
        cases h.2
      exact ⟨same ▸ notVoid, notVoid, fun hb => same.trans hb⟩
  unfold Typed.cast
  by_cases hb : target = .bool
  · subst hb
    rw [if_pos rfl]
    exact Typed.of_truth (.same hx.type? (hx.test (fits.2.2 rfl)))
  · rw [if_neg hb]
    by_cases hcut : operand.type = .int ∧ target = .byte
    · obtain ⟨hint, rfl⟩ := hcut
      rw [if_pos ⟨hint, rfl⟩]
      refine ⟨.cut ?_ (hx.term fits.1), rfl, rfl, Ty.noConfusion, Ty.noConfusion⟩
      exact hx.type?.trans (congrArg some hint)
    · rw [if_neg hcut]
      exact ⟨.same hx.type? hb (Ty.convertibleTo_of_cast h hcut) (hx.term fits.1), rfl, rfl,
        hb, fits.2.1⟩

theorem Typed.of_choice {condition thenValue elseValue : Typed} {y z : Node} (hx : condition.Of x)
    (hc : condition.type = .bool) (hy : thenValue.Of y) (hz : elseValue.Of z)
    (h : (Ty.castUp thenValue.type elseValue.type != .invalid &&
      Ty.castUp thenValue.type elseValue.type != .void) = true) (id : NodeId) :
    (Typed.choice (Ty.castUp thenValue.type elseValue.type) condition thenValue elseValue).Of
      (.mk id l (.expression (Ty.castUp thenValue.type elseValue.type) .conditional) [x,
        y, z]) := by
  rw [Bool.and_eq_true] at h
  have valid : Ty.castUp thenValue.type elseValue.type ≠ .invalid := by
    intro eq
    rw [eq] at h
    exact absurd h.1 nofun
  have notVoid : Ty.castUp thenValue.type elseValue.type ≠ .void := by
    intro eq
    rw [eq] at h
    cases h.2
  have arms := Ty.ne_void_of_castUp valid notVoid
  unfold Typed.choice
  by_cases hb : Ty.castUp thenValue.type elseValue.type = .bool
  · have truths := Ty.castUp_eq_bool hb
    rw [if_pos hb]
    rw [hb]
    exact Typed.of_truth (.choice (hx.test hc) (hy.test truths.1) (hz.test truths.2))
  · rw [if_neg hb]
    exact ⟨.choice hb ⟨_, _, hy.type?, hz.type?, rfl⟩ (Ty.ir?_eq valid) (hx.test hc)
      (hy.term arms.1) (hz.term arms.2), rfl, rfl, hb, notVoid⟩

theorem Typed.fit_eq_false : ∀ {args : List Typed} {parameters : List Ty},
    args.length ≠ parameters.length → Typed.fit args parameters = false
  | [], [], h => absurd rfl h
  | [], _ :: _, _ | _ :: _, [], _ => rfl
  | _ :: _, _ :: _, h => by
    unfold Typed.fit
    rw [Typed.fit_eq_false fun eq => h (congrArg (· + 1) eq), Bool.and_false]

theorem Builder.run_argumentsConvert (h : Typed.OfAll args nodes)
    (hl : nodes.length = parameters.length)
    (b : Builder) : run (argumentsConvert nodes parameters) b
      = .ok (.ok (Typed.fit args parameters), b) := by
  induction h generalizing parameters with
  | nil =>
    cases parameters with
    | nil => rfl
    | cons type types => exact absurd hl nofun
  | @cons argument _ _ _ hn _ ih =>
    cases parameters with
    | nil => exact absurd hl nofun
    | cons type types =>
      unfold Builder.argumentsConvert Typed.fit
      rw [run_bind_ok (run_typeOf hn.type? b)]
      by_cases hc : argument.type.convertibleTo type = true
      · rw [if_pos hc, hc, Bool.true_and]
        exact ih (Nat.succ.inj hl)
      · rw [if_neg hc, Bool.eq_false_iff.mpr hc, Bool.false_and]
        rfl

theorem Builder.follows_call {start : Builder} (built : BuiltAll start nodes b args)
    (h : e.Matches b.symbols) (name : String) :
    Follows (Builder.call name nodes l) b
      (match e.get? name with
        | some (.function returnType parameters) => do
          require (Typed.fit args parameters) (.prototypeMismatch name parameters l)
          return .call returnType name (Typed.arguments args parameters)
        | _ => .error (.semantic (.undefinedFunction name l)))
      (Built start l) := by
  unfold Builder.call
  refine Follows.step (run_get b) ?_
  rw [h.get name]
  cases found : e.get? name with
  | none => exact follows_throw _ b _
  | some m =>
    have sound := h.sound name m found
    cases m with
    | «variable» type pointer offset | parameter type index => exact follows_throw _ b _
    | function returnType parameters =>
      have made : Typed.fit args parameters = true → Follows
          (addExpression (.call name parameters) returnType l nodes) b
          (.ok (.call returnType name (Typed.arguments args parameters))) (Built start l) :=
        fun fit => follows_addExpression built.ready built.same
          (Typed.of_call sound.2.1 (built.of.arguments sound.2.2 fit))
      by_cases hl : nodes.length = parameters.length
      · simp only [Option.map_some, Meaning.symbol, hl, if_true]
        exact Follows.step (run_argumentsConvert built.of hl b) (Follows.check made)
      · have fit := Typed.fit_eq_false (by rw [built.of.length_eq]; exact hl)
        simp only [Option.map_some, Meaning.symbol, hl, if_false, fit] at made ⊢
        exact Follows.step (x := false) rfl (Follows.check made)

end Cases

/-- A condition is found to be a truth value before what it guards is built. -/
theorem Builder.follows_condition {e : Env} {x : Expr} {b : Builder} {α γ : Type}
    {k : Node → BuildM α} {next : Typed → Except Failure γ} {R : α → Builder → γ → Prop}
    (hx : Follows x.build b (x.elaborate e) (Built b x.location))
    (hk : ∀ n b₁ tx, Built b x.location n b₁ tx → tx.type = .bool → Follows (k n) b₁ (next tx) R) :
    Follows (do
        let n ← x.build
        checkCondition n
        k n) b
      (do
        let typed ← x.elaborate e
        require (typed.type == .bool) (.typeMismatch x.location)
        next typed) R := by
  refine hx.bind fun n b₁ tx _ built => ?_
  rw [← built.location]
  exact Follows.expectType built.of.type? _ (hk n b₁ tx built)

/-- A condition has been checked already when the node around it is made. -/
theorem Builder.run_expectBool {typed : Typed} {n : Node} (of : typed.Of n)
    (bool : typed.type = .bool) (l : Location)
    (b : Builder) : run (expectType n .bool l) b = .ok (.ok (), b) := by
  unfold Builder.expectType
  rw [run_bind_ok (run_typeOf of.type? b), bool]
  rfl

/-! ## Induction -/

mutual

/-- The building of an expression follows its elaboration. -/
theorem Expr.build_follows {e : Env} : ∀ (x : Expr) (b : Builder), e.Matches b.symbols →
    Follows x.build b (x.elaborate e) (Built b x.location)
  | .literal l value, b, _ => by
    unfold Expr.build Expr.elaborate
    refine (value.follows l b).andThen ?_
    rintro literal b' typed ⟨of, rfl⟩
    exact follows_addExpression (.nil _) (.refl _) of
  | .identifier l name, b, h => by
    unfold Expr.build Expr.elaborate
    refine (follows_resolve h name).bind ?_
    rintro ⟨_, _⟩ b' ⟨place, type⟩ - ⟨found, rfl, special⟩
    cases found
    exact follows_addExpression (.nil _) (.refl _) (Typed.of_read special place name)
  | .call l name arguments, b, h => by
    unfold Expr.build Expr.elaborate
    refine (Expr.buildAll_follows arguments b h).bind ?_
    intro nodes b' typed _ built
    exact follows_call built (built.same.symbols ▸ h) name
  | .not l operand, b, h => by
    unfold Expr.build Expr.elaborate
    refine (operand.build_follows b h).bind ?_
    intro x b₁ tx _ hx
    refine Follows.expectType hx.of.type? l fun hb => ?_
    exact follows_addExpression hx.ready hx.same fun id => Typed.of_truth (.not (hx.of.test hb))
  | .and l left right, b, h | .or l left right, b, h => by
    unfold Expr.build Expr.elaborate
    refine (left.build_follows b h).bind ?_
    intro x b₁ tx _ hx
    refine (right.build_follows b₁ (hx.same.symbols ▸ h)).bind ?_
    intro y b₂ ty _ hy
    refine Follows.expectType hx.of.type? l fun hbx => ?_
    refine Follows.expectType hy.of.type? l fun hby => ?_
    exact follows_addExpression (hx.ready.append hy.ready) (hx.same.trans hy.same) fun id =>
      Typed.of_truth (by constructor <;> first | exact hx.of.test hbx | exact hy.of.test hby)
  | .arithmetic l operator left right, b, h => by
    unfold Expr.build Expr.elaborate
    refine (left.build_follows b h).bind ?_
    intro x b₁ tx _ hx
    refine (right.build_follows b₁ (hx.same.symbols ▸ h)).bind ?_
    intro y b₂ ty _ hy
    refine Follows.expectNumeric hx.of.type? l fun hnx => ?_
    refine Follows.expectNumeric hy.of.type? l fun hny => ?_
    refine Follows.step (run_typeOf hx.of.type? b₂) ?_
    refine Follows.step (run_typeOf hy.of.type? b₂) ?_
    have result := Ty.castUp_of_isNumeric hnx hny
    refine follows_addExpression (hx.ready.append hy.ready) (hx.same.trans hy.same) fun id =>
      ⟨?_, rfl, rfl, result.1, result.2⟩
    exact .arithmetic ⟨_, _, hx.of.type?, hy.of.type?, hnx, hny, rfl⟩
      (hx.of.term (Ty.ne_void_of_isNumeric hnx)) (hy.of.term (Ty.ne_void_of_isNumeric hny))
  | .comparison l operator left right, b, h => by
    unfold Expr.build Expr.elaborate
    refine (left.build_follows b h).bind ?_
    intro x b₁ tx _ hx
    refine (right.build_follows b₁ (hx.same.symbols ▸ h)).bind ?_
    intro y b₂ ty _ hy
    refine Follows.expectNumeric hx.of.type? l fun hnx => ?_
    refine Follows.expectNumeric hy.of.type? l fun hny => ?_
    refine follows_addExpression (hx.ready.append hy.ready) (hx.same.trans hy.same) fun id =>
      Typed.of_truth (.compare hx.of.type? hy.of.type? hnx hny ?_ ?_)
    · exact hx.of.term (Ty.ne_void_of_isNumeric hnx)
    · exact hy.of.term (Ty.ne_void_of_isNumeric hny)
  | .cast l target operand, b, h => by
    unfold Expr.build Expr.elaborate
    refine (operand.build_follows b h).bind ?_
    intro x b₁ tx _ hx
    refine Follows.step (run_typeOf hx.of.type? b₁) ?_
    refine Follows.check fun fits => ?_
    exact follows_addExpression hx.ready hx.same (Typed.of_cast hx.of fits)
  | .conditional l condition thenValue elseValue, b, h => by
    unfold Expr.build Expr.elaborate
    refine follows_condition (condition.build_follows b h) fun x b₁ tx hx hb => ?_
    refine (thenValue.build_follows b₁ (hx.same.symbols ▸ h)).bind ?_
    intro y b₂ ty _ hy
    refine (elseValue.build_follows b₂ (hy.same.symbols ▸ hx.same.symbols ▸ h)).bind ?_
    intro z b₃ tz _ hz
    refine Follows.step (run_expectBool hx.of hb l b₃) ?_
    refine Follows.step (run_typeOf hy.of.type? b₃) ?_
    refine Follows.step (run_typeOf hz.of.type? b₃) ?_
    refine Follows.check fun common => ?_
    exact follows_addExpression ((hx.ready.append hy.ready).append hz.ready)
      ((hx.same.trans hy.same).trans hz.same) (Typed.of_choice hx.of hb hy.of hz.of common)

theorem Expr.buildAll_follows {e : Env} : ∀ (xs : List Expr) (b : Builder), e.Matches b.symbols →
    Follows (Expr.buildAll xs) b (Expr.elaborateAll e xs) (BuiltAll b)
  | [], b, _ => by
    unfold Expr.buildAll Expr.elaborateAll
    exact Follows.pure ⟨.nil _, .refl _, .nil⟩
  | x :: xs, b, h => by
    unfold Expr.buildAll Expr.elaborateAll
    refine (x.build_follows b h).bind ?_
    intro n b₁ tx _ hx
    refine (Expr.buildAll_follows xs b₁ (hx.same.symbols ▸ h)).bind ?_
    intro ns b₂ txs _ hxs
    exact Follows.pure ⟨hx.ready.append hxs.ready, hx.same.trans hxs.same, .cons hx.of hxs.of⟩

end

end Backpatch
