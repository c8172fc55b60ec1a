import Backpatch.Proofs.Code.History
import Backpatch.Proofs.Elaboration.Basic
import Backpatch.Proofs.Elaboration.Forest
import Backpatch.Proofs.Emission.Expression
import Backpatch.Proofs.Session.Scopes

/-!
# Building by plan

A step of the building *follows* a plan, the result of the elaboration, if it succeeds where the
plan succeeds, with results that fit, and fails where the plan fails, with the same error. Steps
that follow plans can be put one after the other (`Follows.bind`).
-/

namespace Backpatch

namespace Builder

variable {α β γ δ : Type}

/-- The step succeeds or fails from `b` on as the plan does; `R` relates the results. -/
def Follows (step : BuildM α) (b : Builder) (plan : Except Failure β)
    (R : α → Builder → β → Prop) : Prop :=
  match plan with
  | .ok y => ∃ x b', run step b = .ok (.ok x, b') ∧ R x b' y
  | .error (.semantic e) => ∃ b', run step b = .ok (.error e, b')
  | .error (.internal f) => run step b = .error f

theorem run_bind (step : BuildM α) (k : α → BuildM β) (b : Builder) :
    run (step >>= k) b = match run step b with
      | .ok (.ok x, b') => run (k x) b'
      | .ok (.error e, b') => .ok (.error e, b')
      | .error f => .error f := by
  have unfolded : run (step >>= k) b
      = (run step b).bind fun r => (ExceptT.bindCont k r.1 : StateT Builder (Except Fault) _) r.2 :=
        rfl
  rw [unfolded]
  cases run step b with
  | error f => rfl
  | ok r =>
    obtain ⟨r, b'⟩ := r
    cases r <;> rfl

variable {k : α → BuildM β} {b b' : Builder} {x : α} {plan : Except Failure γ}
  {R : α → Builder → γ → Prop} {e : SemanticError} {children : List Node}

/-- A step that is not part of the plan. -/
theorem run_bind_ok {step : BuildM α} (h : run step b = .ok (.ok x, b')) :
    run (step >>= k) b = run (k x) b' := by
  rw [run_bind, h]

theorem Follows.step {step : BuildM α} {R : β → Builder → γ → Prop}
    (h : run step b = .ok (.ok x, b'))
    (hk : Follows (k x) b' plan R) : Follows (step >>= k) b plan R := by
  unfold Follows at hk ⊢
  rw [run_bind_ok h]
  exact hk

theorem Follows.bind {step : BuildM α} {next : γ → Except Failure δ} {S : β → Builder → δ → Prop}
    (h : Follows step b plan R)
    (hk : ∀ x b' y, plan = .ok y → R x b' y → Follows (k x) b' (next y) S) :
    Follows (step >>= k) b (plan >>= next) S := by
  cases plan with
  | ok y =>
    obtain ⟨x, b', ran, fits⟩ := h
    exact (hk x b' y rfl fits).step ran
  | error failure =>
    cases failure with
    | semantic e =>
      obtain ⟨b', ran⟩ := h
      refine ⟨b', ?_⟩
      rw [run_bind, ran]
    | internal f =>
      have ran : run step b = .error f := h
      show run (step >>= k) b = .error f
      rw [run_bind, ran]

theorem Follows.pure {y : γ} (h : R x b y) : Follows (pure x) b (pure y) R :=
  ⟨x, b, rfl, h⟩

theorem Follows.imp {step : BuildM α} {S : α → Builder → γ → Prop} (h : Follows step b plan R)
    (hs : ∀ x b' y, R x b' y → S x b' y) : Follows step b plan S := by
  cases plan with
  | ok y =>
    obtain ⟨x, b', ran, fits⟩ := h
    exact ⟨x, b', ran, hs x b' y fits⟩
  | error failure =>
    cases failure with
    | semantic e | internal f => exact h

theorem follows_throw (e : SemanticError) (b : Builder) (R : α → Builder → γ → Prop) :
    Follows (throw e) b (.error (.semantic e)) R :=
  ⟨b, rfl⟩

theorem follows_fault (f : Fault) (b : Builder) (R : α → Builder → γ → Prop) :
    Follows (fault f) b (.error (.internal f)) R :=
  rfl

theorem follows_check (holds : Bool) (e : SemanticError) (b : Builder) :
    Follows (check holds e) b (require holds e) fun _ b' _ => b' = b ∧ holds = true := by
  cases holds with
  | true => exact ⟨(), b, rfl, rfl, rfl⟩
  | false => exact ⟨b, rfl⟩

/-- A check of the plan. -/
theorem Follows.check {holds : Bool} {k : Unit → BuildM α} {next : Unit → Except Failure γ}
    (hk : holds = true → Follows (k ()) b (next ()) R) :
    Follows (Builder.check holds e >>= k) b (require holds e >>= next) R := by
  refine (follows_check holds e b).bind ?_
  rintro ⟨⟩ b' ⟨⟩ - ⟨rfl, h⟩
  exact hk h

theorem run_typeOf {n : Node} {type : Ty} (h : n.type? = some type) (b : Builder) :
    run (typeOf n) b = .ok (.ok type, b) := by
  unfold typeOf
  rw [h]
  rfl

theorem run_get (b : Builder) : run get b = .ok (.ok b, b) := rfl

theorem run_declare_ok {step : SymbolTable → Except SemanticError (α × SymbolTable)} {a : α}
    {table : SymbolTable} (h : step b.symbols = .ok (a, table)) :
    run (declare step) b = .ok (.ok a, { b with symbols := table }) := by
  unfold run declare
  simp only [ExceptT.run_mk, StateT.run, h]

theorem run_declare_error {step : SymbolTable → Except SemanticError (α × SymbolTable)}
    (h : step b.symbols = .error e) : run (declare step) b = .ok (.error e, b) := by
  unfold run declare
  simp only [ExceptT.run_mk, StateT.run, h]

theorem of_run_add {kind : NodeKind} {l : Location} {r : Except SemanticError Node}
    (h : run (add kind l children) b = .ok (r, b')) :
    ∃ n f, b.forest.add kind l children = .ok (n, f) ∧ r = .ok n ∧ b' = { b with forest := f } := by
  unfold run add at h
  simp only [ExceptT.run_mk, StateT.run] at h
  obtain ⟨⟨n, f⟩, made, done⟩ := of_bind_eq_ok h
  cases done
  exact ⟨n, f, made, rfl, rfl⟩

/-- A node is made around nodes that are ready. -/
theorem run_add {start : Forest} (h : start.Ready children b.forest) (kind : NodeKind)
    (l : Location) :
    ∃ id f, run (add kind l children) b = .ok (.ok (.mk id l kind children),
      { b with forest := f }) ∧ start.Ready [.mk id l kind children] f := by
  obtain ⟨f, made, ready⟩ := h.add kind l
  refine ⟨b.forest.size, f, ?_, ready⟩
  unfold run add
  simp only [ExceptT.run_mk, StateT.run, made]
  rfl

end Builder

end Backpatch
