import Backpatch.Proofs.Machine.Basic

/-!
# Outcomes

What comes of a computation that shows events. Outcomes are chained: the events of the first part
come before those of the second, and there is no second part where the first has stopped the whole
run.

The meaning of a program is given twice with these outcomes, for its source and for its core terms,
and `Outcome.Refines` compares the two. A loop is repeated at most as often as a limit says
(`iterate`), and a computation that has not finished by then has no outcome yet.
-/

namespace Backpatch

inductive Outcome (α : Type)
  /-- There is a value, and the run goes on. -/
  | done (events : List Event) (value : α)
  /-- The whole run has ended. -/
  | stopped (events : List Event) (ending : Ending)
  /-- The limit has been reached, or what is computed is undefined. -/
  | unfinished
  deriving DecidableEq, Repr

namespace Outcome

variable {α β : Type}

/-- The outcome with the events that have been shown before. -/
def after (events : List Event) : Outcome α → Outcome α
  | done later value => done (events ++ later) value
  | stopped later ending => stopped (events ++ later) ending
  | unfinished => unfinished

instance : Monad Outcome where
  pure value := done [] value
  bind first next :=
    match first with
    | done events value => (next value).after events
    | stopped events ending => stopped events ending
    | unfinished => unfinished

/-- A value that may be missing. -/
def ofOption : Option α → Outcome α
  | some value => pure value
  | none => unfinished

@[simp] theorem after_nil (o : Outcome α) : o.after [] = o := by
  cases o <;> rfl

theorem after_after (events later : List Event) (o : Outcome α) :
    (o.after later).after events = o.after (events ++ later) := by
  cases o with
  | done last value => exact congrArg (done · value) (List.append_assoc ..).symm
  | stopped last ending => exact congrArg (stopped · ending) (List.append_assoc ..).symm
  | unfinished => rfl

theorem after_bind (events : List Event) (o : Outcome α) (next : α → Outcome β) :
    o.after events >>= next = (o >>= next).after events := by
  cases o with
  | done later value => exact (after_after events later (next value)).symm
  | stopped later ending | unfinished => rfl

instance : LawfulMonad Outcome := LawfulMonad.mk' Outcome
  (fun o => by
    cases o with
    | done events value => exact congrArg (done · value) (List.append_nil events)
    | stopped events ending => rfl
    | unfinished => rfl)
  (fun value next => after_nil (next value)) (fun o next last => by
    cases o with
    | done events value => exact after_bind events (next value) last
    | stopped events ending => rfl
    | unfinished => rfl)

/-! ## Comparing outcomes -/

/-- Whenever the first computation finishes, the second finishes in the same way: it shows the same
events, and its value is related to that of the first. -/
inductive Refines (R : α → β → Prop) : Outcome α → Outcome β → Prop
  | done {a : α} {b : β} (events : List Event) (related : R a b) : Refines R (done events a)
    (done events b)
  | stopped (events : List Event) (ending : Ending) : Refines R (stopped events ending)
    (stopped events ending)
  | unfinished (o : Outcome β) : Refines R unfinished o

namespace Refines

variable {α' β' : Type} {R : α → β → Prop} {R' : α' → β' → Prop} {o : Outcome α} {o' : Outcome β}

protected theorem pure {a : α} {b : β} (related : R a b) : Refines R (pure a) (pure b) :=
  .done [] related

theorem after (h : Refines R o o') (events : List Event) :
    Refines R (o.after events) (o'.after events) := by
  cases h with
  | done later related => exact .done _ related
  | stopped later ending => exact .stopped _ _
  | unfinished o => exact .unfinished _

protected theorem bind {next : α → Outcome α'} {next' : β → Outcome β'} (h : Refines R o o')
    (rest : ∀ a b, R a b → Refines R' (next a) (next' b)) :
    Refines R' (o >>= next) (o' >>= next') := by
  cases h with
  | done events related => exact (rest _ _ related).after events
  | stopped events ending => exact .stopped _ _
  | unfinished o => exact .unfinished _

theorem bind_left {next : α → Outcome α'} {S : α' → β → Prop} (h : Refines R o o')
    (rest : ∀ a b, R a b → Refines S (next a) (pure b)) : Refines S (o >>= next) o' := by
  have both := h.bind rest
  rwa [bind_pure] at both

theorem bind_right {next : β → Outcome β'} {S : α → β' → Prop} (h : Refines R o o')
    (rest : ∀ a b, R a b → Refines S (pure a) (next b)) : Refines S o (o' >>= next) := by
  have both := h.bind rest
  rwa [bind_pure] at both

theorem imp {S : α → β → Prop} (h : Refines R o o') (sub : ∀ a b, R a b → S a b) :
    Refines S o o' := by
  cases h with
  | done events related => exact .done _ (sub _ _ related)
  | stopped events ending => exact .stopped _ _
  | unfinished o => exact .unfinished _

end Refines

end Outcome

/-! ## Statements -/

/-- How control leaves a statement. -/
inductive Flow (ρ : Type)
  | next
  | break
  | continue
  | return (value : ρ)
  deriving DecidableEq, Repr

namespace Flow

/-- Both leave in the same way, with related values. -/
inductive Related {ρ ρ' : Type} (R : ρ → ρ' → Prop) : Flow ρ → Flow ρ' → Prop
  | next : Related R .next .next
  | break : Related R .break .break
  | continue : Related R .continue .continue
  | return {value : ρ} {value' : ρ'} (related : R value value') : Related R (.return value)
    (.return value')

end Flow

/-- Repeats a body as long as a condition holds, at most as often as the limit says. -/
def iterate {σ ρ : Type} (condition : σ → Outcome Bool) (body : σ → Outcome (Flow ρ × σ)) :
    Nat → σ → Outcome (Flow ρ × σ)
  | 0, _ => .unfinished
  | limit + 1, s => do
    if ← condition s then
      match ← body s with
      | (.next, s) | (.continue, s) => iterate condition body limit s
      | (.break, s) => return (.next, s)
      | (.return value, s) => return (.return value, s)
    else return (.next, s)

/-- What relates the states after each round relates them after the loop. -/
theorem Outcome.Refines.iterate {σ σ' ρ ρ' : Type} {condition : σ → Outcome Bool}
    {condition' : σ' → Outcome Bool}
    {body : σ → Outcome (Flow ρ × σ)} {body' : σ' → Outcome (Flow ρ' × σ')} {S : σ → σ' → Prop}
    {R : ρ → ρ' → Prop} (check : ∀ s s', S s s' → Refines Eq (condition s) (condition' s'))
    (round : ∀ s s', S s s' → Refines (fun r r' => Flow.Related R r.1 r'.1 ∧ S r.2 r'.2) (body s)
      (body' s')) :
    ∀ (limit : Nat) (s : σ) (s' : σ'), S s s' →
      Refines (fun r r' => Flow.Related R r.1 r'.1 ∧ S r.2 r'.2) (iterate condition body limit s)
        (iterate condition' body' limit s')
  | 0, _, _, _ => .unfinished _
  | limit + 1, s, s', h => by
    refine (check s s' h).bind fun c c' same => ?_
    subst same
    cases c with
    | false => exact .pure ⟨.next, h⟩
    | true =>
      refine (round s s' h).bind fun r r' related => ?_
      obtain ⟨flow, after⟩ := r
      obtain ⟨flow', after'⟩ := r'
      obtain ⟨flows, states⟩ := related
      cases flows with
      | next | «continue» => exact Outcome.Refines.iterate check round limit after after' states
      | «break» => exact .pure ⟨.next, states⟩
      | «return» values => exact .pure ⟨.return values, states⟩

end Backpatch
