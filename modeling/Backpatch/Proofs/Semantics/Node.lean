import Backpatch.Proofs.Semantics.Expression

/-!
# Meaning of analyzed expressions

What an expression of the analyzed tree evaluates to, where names stand for the values that an
environment gives to their bindings. Expressions that call no function need nothing else.

Such an evaluation shows nothing. It ends with a value of the type that the checker has found, or it
meets a divisor that is zero, which ends the run; the one quotient that is out of range is a
parameter (`Outcome.Plain`). The core term that the expression stands for has the same outcome
(`Term.Of.means`).
-/

namespace Backpatch

open Outcome List

/-- The value that a literal stands for. -/
def LiteralValue.meaning : LiteralValue → Value
  | .int value => .int value.toBitVec
  | .byte value => .byte value.toBitVec
  | .bool value => .bool value
  | .string text => .string text

/-- The outcome of an expression that calls no function. Operands are evaluated from left to right,
and of those of `and`, `or` and a conditional only the ones that are needed. -/
def Node.eval (overflow : Option Word) (env : Binding → Value) : Node → Outcome Value
  | .mk _ _ (.expression _ (.literal value)) [] => return value.meaning
  | .mk _ _ (.expression _ (.identifier _ binding)) [] => return env binding
  | .mk _ _ (.expression _ .not) [operand] => do
    let b ← (← operand.eval overflow env).truth
    return .bool !b
  | .mk _ _ (.expression _ .and) [left, right] => do
    if ← (← left.eval overflow env).truth then right.eval overflow env else return .bool false
  | .mk _ _ (.expression _ .or) [left, right] => do
    if ← (← left.eval overflow env).truth then return .bool true else right.eval overflow env
  | .mk _ _ (.expression _ (.arithmetic operator)) [left, right] => do
    let a ← left.eval overflow env
    let b ← right.eval overflow env
    operator.meaning overflow a b
  | .mk _ _ (.expression _ (.comparison operator)) [left, right] => do
    let a ← left.eval overflow env
    let b ← right.eval overflow env
    operator.meaning a b
  | .mk _ _ (.expression _ (.cast target)) [operand] => do
    return (← operand.eval overflow env).convert target
  | .mk _ _ (.expression type .conditional) [condition, thenValue, elseValue] => do
    let b ← (← condition.eval overflow env).truth
    let value ← (if b then thenValue.eval overflow env else elseValue.eval overflow env)
    return value.convert type
  | _ => .unfinished

/-! ## Outcomes without events -/

/-- Nothing is shown, and only a divisor that is zero ends the run. Where the quotient that is out
of range is known, there is an outcome. -/
def Outcome.Plain {α : Type} (overflow : Option Word) : Outcome α → Prop
  | done events _ => events = []
  | stopped events ending => events = [.text zeroDivisionMessage] ∧ ending = .exited 0
  | unfinished => overflow = none

/-- The first computation has a plain outcome, and the second finishes as it does. -/
structure Outcome.Matches {α β : Type} (overflow : Option Word) (R : α → β → Prop) (o : Outcome α)
    (o' : Outcome β) : Prop where
  refines : Refines R o o'
  plain : o.Plain overflow

namespace Outcome.Matches

variable {α β α' β' : Type} {overflow : Option Word} {R : α → β → Prop} {R' : α' → β' → Prop}
  {o : Outcome α} {o' : Outcome β}

protected theorem pure {a : α} {b : β} (related : R a b) : Matches overflow R (pure a) (pure b) :=
  ⟨.pure related, rfl⟩

protected theorem bind {next : α → Outcome α'} {next' : β → Outcome β'}
    (h : Matches overflow R o o') (rest : ∀ a b, R a b → Matches overflow R' (next a) (next' b)) :
    Matches overflow R' (o >>= next) (o' >>= next') := by
  refine ⟨h.refines.bind fun a b related => (rest a b related).refines, ?_⟩
  obtain ⟨refines, plain⟩ := h
  cases refines with
  | @done a b events related =>
    obtain rfl : events = [] := plain
    show Plain overflow ((next a).after [])
    rw [after_nil]
    exact (rest a b related).plain
  | stopped events ending | unfinished o => exact plain

theorem bind_left {next : α → Outcome α'} {S : α' → β → Prop} (h : Matches overflow R o o')
    (rest : ∀ a b, R a b → Matches overflow S (next a) (pure b)) :
    Matches overflow S (o >>= next) o' := by
  have both := h.bind rest
  rwa [bind_pure] at both

theorem bind_right {next : β → Outcome β'} {S : α → β' → Prop} (h : Matches overflow R o o')
    (rest : ∀ a b, R a b → Matches overflow S (pure a) (next b)) :
    Matches overflow S o (o' >>= next) := by
  have both := h.bind rest
  rwa [bind_pure] at both

theorem bind_number {o : Outcome Value} {o' : Outcome Scalar} {type : Ty}
    {next : Value → Outcome α'}
    {next' : Word → Outcome β'} (h : Matches overflow (fun v c => v.Kept type c) o o')
    (storable : type.isSpecial = false)
    (rest : ∀ v w, v.Kept type (.word w) → Matches overflow R' (next v) (next' w)) :
    Matches overflow R' (o >>= next) (o' >>= fun c => c.number >>= next') := by
  refine h.bind fun v c kept => ?_
  obtain ⟨w, rfl⟩ := kept.exists_word storable
  rw [Scalar.number_word_bind]
  exact rest v w kept

/-- The truth value of an expression, as the condition of another one. -/
theorem condition {o : Outcome Value} {o' : Outcome Bool}
    (h : Matches overflow (fun v b => v = .bool b) o o') :
    Matches overflow Eq (o >>= Value.truth) o' := by
  refine h.bind_left fun v b same => ?_
  subst same
  exact .pure rfl

theorem convert {o : Outcome Value} {o' : Outcome Scalar} {source type : Ty}
    (h : Matches overflow (fun v c => v.Kept source c) o o')
    (converts : source.convertibleTo type = true) :
    Matches overflow (fun v c => v.Kept type c) (do return (← o).convert type) o' :=
  h.bind_left fun _ _ kept => .pure (kept.convert converts)

theorem convert_bool {o : Outcome Value} {o' : Outcome Bool}
    (h : Matches overflow (fun v b => v = .bool b) o o') :
    Matches overflow (fun v b => v = .bool b) (do return (← o).convert .bool) o' := by
  refine h.bind_left fun v b same => ?_
  subst same
  exact .pure rfl

end Outcome.Matches

/-- An operation on numbers shows nothing. -/
theorem Arithmetic.plain_meaning (overflow : Option Word) (operator : Arithmetic) {a b : Value}
    (ha : a.type.isNumeric = true) (hb : b.type.isNumeric = true) :
    (operator.meaning overflow a b).Plain overflow := by
  obtain ⟨m, hm, -⟩ := Value.exists_number ha
  obtain ⟨n, hn, -⟩ := Value.exists_number hb
  unfold Arithmetic.meaning
  rw [hm, hn]
  dsimp only
  split
  · exact ⟨rfl, rfl⟩
  · split
    · cases overflow <;> rfl
    · rfl

theorem Comparison.plain_meaning (overflow : Option Word) (operator : Comparison) {a b : Value}
    (ha : a.type.isNumeric = true) (hb : b.type.isNumeric = true) :
    (operator.meaning a b).Plain overflow := by
  obtain ⟨m, hm, -⟩ := Value.exists_number ha
  obtain ⟨n, hn, -⟩ := Value.exists_number hb
  unfold Comparison.meaning
  rw [hm, hn]
  rfl

/-! ## Names and calls -/

/-- No function is called, and a name has a value of its type, which is what its place holds. -/
def NodeKind.Known (env : Binding → Value) (σ : Locals) : NodeKind → Prop
  | .expression _ (.call ..) => False
  | .expression type (.identifier _ binding) =>
    ∀ place : Place, place.binding = binding → (env binding).Kept type (.word (σ place))
  | _ => True

/-- All that the expression refers to is known. -/
def Node.Known (n : Node) (env : Binding → Value) (σ : Locals) : Prop :=
  ∀ m ∈ n.postorder, m.kind.Known env σ

theorem Node.Known.child {n child : Node} {env : Binding → Value} {σ : Locals} (h : n.Known env σ)
    (mem : child ∈ n.children) : child.Known env σ :=
  fun m inside => h m (Node.mem_postorder.mpr (.inr ⟨child, mem, inside⟩))

/-- No function is called in the expression. -/
def Node.CallFree (n : Node) : Prop :=
  ∀ m ∈ n.postorder, ∀ type name parameters, m.kind ≠ .expression type (.call name parameters)

/-- The expression has a name that stands for the place. -/
def Node.Reads (n : Node) (place : Place) : Prop :=
  ∃ m ∈ n.postorder, ∃ type name, m.kind = .expression type (.identifier name place.binding)

theorem Node.CallFree.child {n child : Node} (h : n.CallFree) (mem : child ∈ n.children) :
    child.CallFree :=
  fun m inside => h m (Node.mem_postorder.mpr (.inr ⟨child, mem, inside⟩))

theorem Node.Reads.parent {n child : Node} {place : Place} (h : child.Reads place)
    (mem : child ∈ n.children) : n.Reads place := by
  obtain ⟨m, inside, is⟩ := h
  exact ⟨m, Node.mem_postorder.mpr (.inr ⟨child, mem, inside⟩), is⟩

section All

variable {R : Place → Prop} {Q : Signatures}

theorem Term.All.parent {term : Term} {n child : Node}
    (h : term.All (fun place => child.Reads place ∧ R place) fun _ _ _ => False)
    (mem : child ∈ n.children) :
    term.All (fun place => n.Reads place ∧ R place) fun _ _ _ => False :=
  h.imp (fun _ both => ⟨both.1.parent mem, both.2⟩) fun _ _ _ none => none

theorem Test.All.parent {test : Test} {n child : Node}
    (h : test.All (fun place => child.Reads place ∧ R place) fun _ _ _ => False)
    (mem : child ∈ n.children) :
    test.All (fun place => n.Reads place ∧ R place) fun _ _ _ => False :=
  h.imp (fun _ both => ⟨both.1.parent mem, both.2⟩) fun _ _ _ none => none

mutual

/-- The term reads only what its expression names, and calls nothing. -/
theorem Term.Of.reads {term : Term} {n : Node} : term.Of n → n.CallFree → term.All R Q →
    term.All (fun place => n.Reads place ∧ R place) fun _ _ _ => False
  | .number _, _, _ | .text, _, _ => trivial
  | .read _, _, all => ⟨⟨_, Node.mem_postorder_self _, _, _, rfl⟩, all⟩
  | .call .., callFree, _ => absurd rfl (callFree _ (Node.mem_postorder_self _) _ _ _)
  | .truth of, callFree, all => Test.Of.reads of callFree all
  | .arithmetic _ hx hy, callFree, all =>
    ⟨(Term.Of.reads hx (callFree.child (.head _)) all.1).parent (.head _),
      (Term.Of.reads hy (callFree.child (.tail _ (.head _))) all.2).parent (.tail _ (.head _))⟩
  | .cut _ hx, callFree, all | .same _ _ _ hx, callFree, all =>
    (Term.Of.reads hx (callFree.child (.head _)) all).parent (.head _)
  | .choice _ _ _ hc hx hy, callFree, all =>
    ⟨(Test.Of.reads hc (callFree.child (.head _)) all.1).parent (.head _),
      (Term.Of.reads hx (callFree.child (.tail _ (.head _))) all.2.1).parent (.tail _ (.head _)),
      (Term.Of.reads hy (callFree.child (.tail _ (.tail _ (.head _)))) all.2.2).parent
        (.tail _ (.tail _ (.head _)))⟩

theorem Test.Of.reads {test : Test} {n : Node} : test.Of n → n.CallFree → test.All R Q →
    test.All (fun place => n.Reads place ∧ R place) fun _ _ _ => False
  | .constant, _, _ => trivial
  | .read, _, all => ⟨⟨_, Node.mem_postorder_self _, _, _, rfl⟩, all⟩
  | .call .., callFree, _ => absurd rfl (callFree _ (Node.mem_postorder_self _) _ _ _)
  | .not hx, callFree, all | .same _ hx, callFree, all =>
    (Test.Of.reads hx (callFree.child (.head _)) all).parent (.head _)
  | .and hx hy, callFree, all | .or hx hy, callFree, all =>
    ⟨(Test.Of.reads hx (callFree.child (.head _)) all.1).parent (.head _),
      (Test.Of.reads hy (callFree.child (.tail _ (.head _))) all.2).parent (.tail _ (.head _))⟩
  | .compare _ _ _ _ hx hy, callFree, all =>
    ⟨(Term.Of.reads hx (callFree.child (.head _)) all.1).parent (.head _),
      (Term.Of.reads hy (callFree.child (.tail _ (.head _))) all.2).parent (.tail _ (.head _))⟩
  | .choice hc hx hy, callFree, all =>
    ⟨(Test.Of.reads hc (callFree.child (.head _)) all.1).parent (.head _),
      (Test.Of.reads hx (callFree.child (.tail _ (.head _))) all.2.1).parent (.tail _ (.head _)),
      (Test.Of.reads hy (callFree.child (.tail _ (.tail _ (.head _)))) all.2.2).parent
        (.tail _ (.tail _ (.head _)))⟩

end

end All

/-! ## Expressions -/

theorem LiteralValue.kept_meaning {value : LiteralValue} {k : Int} (h : value.number? = some k) :
    value.meaning.Kept value.type (.word (BitVec.ofInt 32 k)) := by
  cases value with
  | int value =>
    obtain rfl := Option.some.inj h
    refine ⟨rfl, ?_⟩
    show some (Scalar.word value.toBitVec) = some (.word (BitVec.ofInt 32 value.toBitVec.toInt))
    rw [BitVec.ofInt_toInt]
  | byte value =>
    obtain rfl := Option.some.inj h
    refine ⟨rfl, ?_⟩
    show some (Scalar.word (value.toBitVec.setWidth 32))
      = some (.word (BitVec.ofInt 32 (value.toBitVec.toNat : Int)))
    rw [BitVec.ofInt_natCast, BitVec.ofNat_toNat]
  | bool | string => cases h

section Means

variable {env : Binding → Value} {σ : Locals} {C : CoreSetting}

mutual

/-- An analyzed expression and the term that it stands for have the same outcome. -/
theorem Term.Of.means {type : Ty} :
    ∀ {term : Term} {n : Node}, term.Of n → n.type? = some type → n.Known env σ →
      Matches C.overflow (fun v c => v.Kept type c) (n.eval C.overflow env) (term.eval C σ)
  | _, _, .number hk, typed, _ => by
    obtain rfl := Option.some.inj typed
    rw [Node.eval, Term.eval]
    exact .pure (LiteralValue.kept_meaning hk)
  | _, _, .text, typed, _ => by
    obtain rfl := Option.some.inj typed
    rw [Node.eval, Term.eval]
    exact .pure ⟨rfl, rfl⟩
  | .read place, _, .read _, typed, known => by
    obtain rfl := Option.some.inj typed
    rw [Node.eval, Term.eval]
    exact .pure (known _ (Node.mem_postorder_self _) place rfl)
  | _, _, .call .., _, known => (known _ (Node.mem_postorder_self _)).elim
  | _, _, .truth of, typed, known => by
    obtain rfl := Option.some.inj (of.type?.symm.trans typed)
    rw [Term.eval]
    refine (Test.Of.means of known).bind_right fun v b same => ?_
    subst same
    exact .pure ⟨rfl, rfl⟩
  | .arithmetic operator .., _, .arithmetic ⟨ta, tb, ha, hb, numeric, numeric', same⟩ hl hr,
      typed, known => by
    subst same
    obtain rfl := Option.some.inj typed
    rw [Node.eval, Term.eval]
    refine (Term.Of.means hl ha (known.child mem_cons_self)).bind_number
      (Ty.isSpecial_of_isNumeric numeric) fun u x hu => ?_
    refine (Term.Of.means hr hb (known.child (mem_cons_of_mem _ mem_cons_self))).bind_number
      (Ty.isSpecial_of_isNumeric numeric') fun v y hv => ?_
    rw [← hu.type] at numeric ⊢
    rw [← hv.type] at numeric' ⊢
    have computed : Matches C.overflow _ _ _ :=
      ⟨Arithmetic.refines C.overflow operator numeric numeric' hu.scalar hv.scalar,
        Arithmetic.plain_meaning C.overflow operator numeric numeric'⟩
    exact computed.bind_right fun v w kept => .pure ⟨kept.1, kept.2⟩
  | _, _, .cut int of, typed, known => by
    obtain rfl := Option.some.inj typed
    rw [Node.eval, Term.eval]
    refine (Term.Of.means of int (known.child mem_cons_self)).bind_number rfl fun v w kept => ?_
    have numeric : v.type.isNumeric = true := kept.type ▸ rfl
    obtain ⟨n, number, -, scalar⟩ := Value.exists_number numeric
    obtain rfl := Scalar.word.inj (Option.some.inj (scalar.symm.trans kept.scalar))
    rw [Value.convert_of_number number rfl]
    exact .pure ⟨Value.type_ofNumber rfl n, Value.scalar?_ofNumber .byte n⟩
  | _, _, .same ha _ converts of, typed, known => by
    obtain rfl := Option.some.inj typed
    rw [Node.eval, Term.eval]
    exact (Term.Of.means of ha (known.child mem_cons_self)).convert converts
  | _, _, .choice _ ⟨ta, tb, ha, hb, same⟩ ir hc hx hy, typed, known => by
    subst same
    obtain rfl := Option.some.inj typed
    have valid : Ty.castUp ta tb ≠ .invalid := by
      intro eq
      rw [eq] at ir
      cases ir
    rw [Node.eval, Term.eval, ← bind_assoc]
    refine (Test.Of.means hc (known.child mem_cons_self)).condition.bind fun b b' same => ?_
    subst same
    cases b with
    | true =>
      exact (Term.Of.means hx ha (known.child (mem_cons_of_mem _ mem_cons_self))).convert
        (Ty.convertibleTo_castUp_left valid)
    | false =>
      exact (Term.Of.means hy hb (known.child
        (mem_cons_of_mem _ (mem_cons_of_mem _ mem_cons_self)))).convert
        (Ty.convertibleTo_castUp_right valid)

theorem Test.Of.means :
    ∀ {test : Test} {n : Node}, test.Of n → n.Known env σ →
      Matches C.overflow (fun v b => v = .bool b) (n.eval C.overflow env) (test.eval C σ)
  | _, _, .constant, _ => by
    rw [Node.eval, Test.eval]
    exact .pure rfl
  | .read place, _, .read, known => by
    rw [Node.eval, Test.eval]
    have kept : (env place.binding).Kept .bool (.word (σ place)) :=
      known _ (Node.mem_postorder_self _) place rfl
    obtain ⟨b, value, word⟩ := kept.exists_bool
    rw [value, Scalar.word.inj word]
    cases b <;> exact .pure rfl
  | _, _, .call _, known => (known _ (Node.mem_postorder_self _)).elim
  | _, _, .not of, known => by
    rw [Node.eval, Test.eval, ← bind_assoc]
    refine (Test.Of.means of (known.child mem_cons_self)).condition.bind fun b b' same => ?_
    subst same
    exact .pure rfl
  | _, _, .and hl hr, known => by
    rw [Node.eval, Test.eval, ← bind_assoc]
    refine (Test.Of.means hl (known.child mem_cons_self)).condition.bind fun b b' same => ?_
    subst same
    cases b with
    | true => exact Test.Of.means hr (known.child (mem_cons_of_mem _ mem_cons_self))
    | false => exact .pure rfl
  | _, _, .or hl hr, known => by
    rw [Node.eval, Test.eval, ← bind_assoc]
    refine (Test.Of.means hl (known.child mem_cons_self)).condition.bind fun b b' same => ?_
    subst same
    cases b with
    | true => exact .pure rfl
    | false => exact Test.Of.means hr (known.child (mem_cons_of_mem _ mem_cons_self))
  | _, _, .compare ha hb numeric numeric' hl hr, known => by
    rw [Node.eval, Test.eval]
    refine (Term.Of.means hl ha (known.child mem_cons_self)).bind_number
      (Ty.isSpecial_of_isNumeric numeric) fun u x hu => ?_
    refine (Term.Of.means hr hb (known.child (mem_cons_of_mem _ mem_cons_self))).bind_number
      (Ty.isSpecial_of_isNumeric numeric') fun v y hv => ?_
    rw [← hu.type] at numeric ⊢
    rw [← hv.type] at numeric' ⊢
    exact ⟨Comparison.refines _ numeric numeric' hu.scalar hv.scalar,
      Comparison.plain_meaning C.overflow _ numeric numeric'⟩
  | _, _, .same _ of, known => by
    rw [Node.eval, Test.eval]
    exact (Test.Of.means of (known.child mem_cons_self)).convert_bool
  | _, _, .choice hc hx hy, known => by
    rw [Node.eval, Test.eval, ← bind_assoc]
    refine (Test.Of.means hc (known.child mem_cons_self)).condition.bind fun b b' same => ?_
    subst same
    cases b with
    | true => exact (Test.Of.means hx (known.child (mem_cons_of_mem _ mem_cons_self))).convert_bool
    | false =>
      exact (Test.Of.means hy
        (known.child (mem_cons_of_mem _ (mem_cons_of_mem _ mem_cons_self)))).convert_bool

end

end Means

end Backpatch
