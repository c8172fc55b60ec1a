import Backpatch.Proofs.Emission.Confined
import Backpatch.Proofs.Emission.Run

/-!
# Emission does not look elsewhere

What is kept about other nodes makes no difference to the emission of a node, and the emission of
the node makes none to it (`Confined.locally`). So a fact about the emission of a node where nothing
is kept about any node is a fact about its emission anywhere.
-/

namespace Backpatch

open Emission

/-! ## Tables that agree -/

/-- The tables keep the same about the nodes. -/
def ExitTable.Agree (nodes : NodeId → Prop) (t u : ExitTable) : Prop :=
  ∀ id, nodes id → t.get id = u.get id

/-- What the table keeps about the given nodes, and nothing about others. -/
def ExitTable.only (t : ExitTable) : List NodeId → ExitTable
  | [] => {}
  | id :: ids => (t.only ids).set id (t.get id)

theorem ExitTable.get_only (t : ExitTable) (ids : List NodeId) (id : NodeId) :
    (t.only ids).get id = if id ∈ ids then t.get id else .unknown := by
  induction ids with
  | nil => exact get_empty id
  | cons other ids ih =>
    unfold only
    rw [get_set, ih]
    by_cases eq : id = other
    · rw [if_pos eq, if_pos (List.mem_cons.mpr (.inl eq)), eq]
    · rw [if_neg eq]
      simp only [List.mem_cons, eq, false_or]

theorem ExitTable.agree_only (t : ExitTable) (ids : List NodeId) :
    Agree (· ∈ ids) t (t.only ids) := by
  intro id mem
  rw [get_only, if_pos mem]

variable {t : ExitTable}

theorem ExitTable.quiet_only {ids : List NodeId} (h : ∀ id ∈ ids, (t.get id).Quiet) :
    (t.only ids).Quiet := by
  intro id
  rw [get_only]
  split
  · exact h id ‹_›
  · exact ⟨rfl, rfl, rfl, rfl, rfl⟩

theorem ExitTable.Agree.set {nodes : NodeId → Prop} {u : ExitTable} (h : Agree nodes t u)
    (id : NodeId) (e : Exits) : Agree nodes (t.set id e) (u.set id e) := by
  intro other mem
  rw [get_set, get_set, h other mem]

/-! ## Steps -/

namespace Emission

variable {nodes : NodeId → Prop} {known : List Label} {α : Type}

/-- The step does with the table `t` what it did with the table of `s`, and keeps what is known
about other nodes. -/
def Repeats (nodes : NodeId → Prop) (step : EmitM α) (s s' : Emission) (a : α) (t : ExitTable) :
    Prop :=
  ∃ t', step ⟨s.names, s.buffer, t⟩ = .ok (a, ⟨s'.names, s'.buffer, t'⟩) ∧
    ExitTable.Agree nodes t' s'.exits ∧ ∀ id, ¬nodes id → t'.get id = t.get id

variable {s s' : Emission} {a : α} {t : ExitTable} {step : EmitM α}

theorem repeats_onBuffer {step : CodeBuffer → Except Fault (α × CodeBuffer)}
    (ran : onBuffer step s = .ok (a, s'))
    (agree : ExitTable.Agree nodes t s.exits) : Repeats nodes (onBuffer step) s s' a t := by
  obtain ⟨b, done, rfl⟩ := onBuffer_eq_ok ran
  refine ⟨t, ?_, agree, fun _ _ => rfl⟩
  have unfolded : onBuffer step ⟨s.names, s.buffer, t⟩
      = (step s.buffer).bind fun r => .ok (r.1, ⟨s.names, r.2, t⟩) := rfl
  rw [unfolded, done]
  rfl

/-- A computation that keeps to some nodes does the same whatever is kept about other nodes. -/
theorem Confined.locally (h : Confined nodes known step) (ran : step s = .ok (a, s'))
    (agree : ExitTable.Agree nodes t s.exits) : Repeats nodes step s s' a t := by
  induction h generalizing s s' t with
  | pure a | freshRegister | constant length clean =>
    cases ran
    exact ⟨t, rfl, agree, fun _ _ => rfl⟩
  | fault f => cases ran
  | bind _ _ ihFirst ihRest =>
    obtain ⟨b, s₁, first, rest⟩ := bind_eq_ok ran
    obtain ⟨t₁, ran₁, agree₁, kept₁⟩ := ihFirst first agree
    obtain ⟨t₂, ran₂, agree₂, kept₂⟩ := ihRest b rest agree₁
    exact ⟨t₂, (bind_ok ran₁).trans ran₂, agree₂, fun id out => (kept₂ id out).trans (kept₁ id out)⟩
  | write i ordinary | jump | branch condition | increaseIndent | decreaseIndent
  | backpatch records given =>
    exact repeats_onBuffer ran agree
  | label _ ih =>
    obtain ⟨l, s₁, first, rest⟩ := bind_eq_ok ran
    cases first
    exact ih _ rest agree
  | @modifyExits _ id mem f =>
    cases ran
    refine ⟨t.set id (f (t.get id)), rfl, ?_, ?_⟩
    · rw [agree id mem]
      exact agree.set id _
    · intro other out
      rw [ExitTable.get_set, if_neg]
      rintro rfl
      exact out mem
  | @exitsOf _ id mem =>
    cases ran
    refine ⟨t, ?_, agree, fun _ _ => rfl⟩
    rw [← agree id mem]
    rfl

theorem Confined.kept (h : Confined nodes known step) (ran : step s = .ok (a, s')) {id : NodeId}
    (out : ¬nodes id) : s'.exits.get id = s.exits.get id := by
  obtain ⟨t, again, -, kept⟩ := h.locally ran (t := s.exits) fun _ _ => rfl
  obtain rfl : s'.exits = t := congrArg (·.2.exits) (Except.ok.inj (ran.symm.trans again))
  exact kept id out

end Emission

end Backpatch
