import Mathlib.Data.List.Forall2
import Backpatch.Proofs.Emission.Function

/-!
# Terms with the same code

Two terms are *alike* if their code is the same, whatever function they stand in and whatever names
are free. A term can be replaced by one that is alike in every larger term, and no line of the
output changes. Negations cost nothing: they only exchange the two exits of a test, so they can be
pushed through all of the logic (`Test.Alike.not_not`, `not_and`, `not_or`, `not_choice`,
`not_constant`).
-/

namespace Backpatch

open List

variable {U V W : Type}

theorem Exit.bind_bind (σ : U → Exit V) (τ : V → Exit W) (e : Exit U) :
    (e.bind σ).bind τ = e.bind fun u => (σ u).bind τ := by
  cases e <;> rfl

namespace Step

theorem bind_bind (σ : U → Exit V) (τ : V → Exit W) (step : Step U) :
    (step.bind σ).bind τ = step.bind fun u => (σ u).bind τ := by
  cases step <;> simp only [bind, Exit.bind_bind]

theorem map_bind_bind (σ : U → Exit V) (τ : V → Exit W) (steps : List (Step U)) :
    (steps.map (bind σ)).map (bind τ) = steps.map (bind fun u => (σ u).bind τ) := by
  rw [map_map]
  exact map_congr_left fun step _ => bind_bind σ τ step

theorem map_bind_via {σ : V → Exit V} (h : ∀ v, σ v = .via v) (steps : List (Step V)) :
    steps.map (bind σ) = steps := by
  have exit : ∀ e : Exit V, e.bind σ = e := by
    intro e
    cases e with
    | goto l => rfl
    | via v => exact h v
  refine (map_congr_left fun step _ => ?_).trans (map_id steps)
  cases step <;> simp only [bind, exit, id]

end Step

/-- The terms have the same code. -/
def Term.Alike (t u : Term) : Prop := ∀ frame s, t.code frame s = u.code frame s

def Test.Alike (t u : Test) : Prop := ∀ frame s, t.code frame s = u.code frame s

def Arguments.Alike (as bs : Arguments) : Prop := ∀ frame s, as.code frame s = bs.code frame s

def Action.Alike (a b : Action) : Prop := ∀ frame s, a.code frame s = b.code frame s

/-- As many actions, each alike the one in its place. -/
inductive Actions.Alike : Actions → Actions → Prop
  | nil : Alike .nil .nil
  | cons {a b : Action} {as bs : Actions} (first : a.Alike b) (rest : Alike as bs) :
    Alike (.cons a as) (.cons b bs)

/-! ## Larger terms -/

namespace Term.Alike

variable {t t' u u' : Term}

theorem refl (t : Term) : t.Alike t := fun _ _ => rfl

theorem call {as bs : Arguments} (h : as.Alike bs) (name : String) (result : IrType) :
    (Term.call name result as).Alike (.call name result bs) := by
  intro frame s
  rw [Term.code, Term.code, h frame s]

theorem truth {c d : Test} (h : c.Alike d) : (Term.truth c).Alike (.truth d) := by
  intro frame s
  rw [Term.code, Term.code, h frame s]

theorem arithmetic (h : t.Alike u) (h' : t'.Alike u') (operator : Arithmetic) (type : Ty) :
    (Term.arithmetic operator type t t').Alike (.arithmetic operator type u u') := by
  intro frame s
  simp only [Term.code, h frame, h' frame]

theorem cut (h : t.Alike u) : (Term.cut t).Alike (.cut u) := by
  intro frame s
  simp only [Term.code, h frame]

theorem same_self (t : Term) : (Term.same t).Alike t := by
  intro frame s
  rw [Term.code]

theorem same (h : t.Alike u) : (Term.same t).Alike (.same u) := by
  intro frame s
  simp only [Term.code, h frame]

theorem choice {c d : Test} (hc : c.Alike d) (h : t.Alike u) (h' : t'.Alike u') (type : IrType) :
    (Term.choice type c t t').Alike (.choice type d u u') := by
  intro frame s
  simp only [Term.code, hc frame, h frame, h' frame]

end Term.Alike

namespace Test.Alike

variable {c c' c'' d d' d'' : Test}

theorem refl (c : Test) : c.Alike c := fun _ _ => rfl

theorem call {as bs : Arguments} (h : as.Alike bs) (name : String) :
    (Test.call name as).Alike (.call name bs) := by
  intro frame s
  simp only [Test.code, h frame]

theorem not (h : c.Alike d) : (Test.not c).Alike (.not d) := by
  intro frame s
  simp only [Test.code, h frame]

theorem and (h : c.Alike d) (h' : c'.Alike d') : (Test.and c c').Alike (.and d d') := by
  intro frame s
  simp only [Test.code, h frame, h' frame]

theorem or (h : c.Alike d) (h' : c'.Alike d') : (Test.or c c').Alike (.or d d') := by
  intro frame s
  simp only [Test.code, h frame, h' frame]

theorem compare {t t' u u' : Term} (h : t.Alike u) (h' : t'.Alike u') (predicate : Predicate) :
    (Test.compare predicate t t').Alike (.compare predicate u u') := by
  intro frame s
  simp only [Test.code, h frame, h' frame]

theorem same_self (c : Test) : (Test.same c).Alike c := by
  intro frame s
  rw [Test.code]

theorem same (h : c.Alike d) : (Test.same c).Alike (.same d) := by
  intro frame s
  simp only [Test.code, h frame]

theorem choice (h : c.Alike d) (h' : c'.Alike d') (h'' : c''.Alike d'') :
    (Test.choice c c' c'').Alike (.choice d d' d'') := by
  intro frame s
  simp only [Test.code, h frame, h' frame, h'' frame]

/-! ### Negations -/

theorem not_constant (value : Bool) : (Test.not (.constant value)).Alike (.constant !value) := by
  intro frame s
  simp only [Test.code]
  rfl

theorem not_not (c : Test) : (Test.not (.not c)).Alike c := by
  intro frame s
  simp only [Test.code, Step.map_bind_bind]
  -- Both exits are exchanged and exchanged back.
  rw [Step.map_bind_via]
  intro value
  cases value <;> rfl

/-- To connect one exit and then exchange both is to exchange them and then connect the other
one. -/
theorem connect_bind_not (value : Bool) (l : Label) :
    (fun v => (Exit.connect value l v).bind fun w => .via !w)
      = fun v => (Exit.via !v : Exit Bool).bind (Exit.connect (!value) l) := by
  funext v
  cases value <;> cases v <;> rfl

theorem not_and (c d : Test) : (Test.not (.and c d)).Alike (.or (.not c) (.not d)) := by
  intro frame s
  simp only [Test.code, map_append, map_cons, Step.map_bind_bind]
  rw [connect_bind_not]
  rfl

theorem not_or (c d : Test) : (Test.not (.or c d)).Alike (.and (.not c) (.not d)) := by
  intro frame s
  simp only [Test.code, map_append, map_cons, Step.map_bind_bind]
  rw [connect_bind_not]
  rfl

theorem not_choice (c d d' : Test) :
    (Test.not (.choice c d d')).Alike (.choice c (.not d) (.not d')) := by
  intro frame s
  simp only [Test.code, map_append, map_cons, Step.map_bind_bind]
  -- The exits of the condition lead to labels, which a negation does not touch.
  have fixed : ∀ onTrue onFalse, (fun v =>
      (toLabels onTrue onFalse v : Exit Bool).bind fun w => .via !w) = toLabels onTrue onFalse := by
    intro onTrue onFalse
    funext v
    cases v <;> rfl
  rw [fixed]
  rfl

end Test.Alike

theorem Arguments.Alike.cons {t u : Term} {as bs : Arguments} (h : t.Alike u) (h' : as.Alike bs)
    (type : IrType) : (Arguments.cons type t as).Alike (.cons type u bs) := by
  intro frame s
  simp only [Arguments.code, h frame, h' frame]

/-! ## Actions -/

namespace Action.Alike

variable {t u : Term} {c d : Test} {a a' b b' : Action}

theorem refl (a : Action) : a.Alike a := fun _ _ => rfl

theorem declare (h : t.Alike u) (offset pointer : Nat) :
    (Action.declare offset pointer (some t)).Alike (.declare offset pointer (some u)) := by
  intro frame s
  simp only [Action.code, h frame]

theorem assign (h : t.Alike u) (place : Place) :
    (Action.assign place t).Alike (.assign place u) := by
  intro frame s
  simp only [Action.code, h frame]

theorem drop (h : t.Alike u) : (Action.drop t).Alike (.drop u) := by
  intro frame s
  simp only [Action.code, h frame]

theorem run {as bs : Arguments} (h : as.Alike bs) (name : String) :
    (Action.run name as).Alike (.run name bs) := by
  intro frame s
  simp only [Action.code, h frame]

theorem check (h : c.Alike d) : (Action.check c).Alike (.check d) := by
  intro frame s
  simp only [Action.code, h frame]

theorem when (hc : c.Alike d) (h : a.Alike b) : (Action.when c a).Alike (.when d b) := by
  intro frame s
  simp only [Action.code, hc frame, h frame]

theorem either (hc : c.Alike d) (h : a.Alike b) (h' : a'.Alike b') :
    (Action.either c a a').Alike (.either d b b') := by
  intro frame s
  simp only [Action.code, hc frame, h frame, h' frame]

theorem loop (hc : c.Alike d) (h : a.Alike b) : (Action.loop c a).Alike (.loop d b) := by
  intro frame s
  simp only [Action.code, hc frame, h frame]

theorem «return» (h : t.Alike u) : (Action.return (some t)).Alike (.return (some u)) := by
  intro frame s
  simp only [Action.code, h frame]

end Action.Alike

theorem Actions.Alike.refl : ∀ as : Actions, as.Alike as
  | .nil => .nil
  | .cons a as => .cons (.refl a) (.refl as)

theorem Actions.Alike.code {as bs : Actions} (h : as.Alike bs) (frame : Frame) (s : NameSupply) :
    Actions.code frame as s = Actions.code frame bs s := by
  induction h generalizing s with
  | nil => rfl
  | cons first rest ih =>
    cases rest with
    | nil => simp only [Actions.code, first frame]
    | cons second rest =>
      rw [Actions.code, Actions.code, first frame]
      simp only [ih]

theorem Action.Alike.block {as bs : Actions} (h : as.Alike bs) :
    (Action.block as).Alike (.block bs) := by
  intro frame s
  cases h with
  | nil => rfl
  | cons first rest =>
    rw [Action.code, Action.code]
    exact (Actions.Alike.cons first rest).code frame s

/-! ## Routines -/

namespace Routine

/-- The same function, with a body that is alike. -/
structure Alike (f g : Routine) : Prop where
  same : { f with body := g.body } = g
  body : f.body.Alike g.body

variable {f g : Routine}

theorem Alike.name (h : f.Alike g) : f.name = g.name := by rw [← h.same]

theorem Alike.code (h : f.Alike g) (s : NameSupply) : f.code s = g.code s := by
  obtain ⟨same, body⟩ := h
  have bodies := Action.Alike.block body f.frame s
  rw [← same]
  unfold Routine.code
  rw [bodies]
  rfl

theorem Alike.head (h : f.Alike g) : f.head = g.head := by
  rw [← h.same]
  rfl

theorem Alike.add (h : f.Alike g) (s : NameSupply) (b : CodeBuffer) : f.add s b = g.add s b := by
  unfold Routine.add
  rw [h.code, h.head]

theorem addAll_congr {fs gs : List Routine} (h : List.Forall₂ Alike fs gs) (s : NameSupply)
    (b : CodeBuffer) : addAll fs s b = addAll gs s b := by
  induction h generalizing s b with
  | nil => rfl
  | cons first rest ih =>
    unfold addAll
    rw [first.code, first.add, ih]

end Routine

end Backpatch
