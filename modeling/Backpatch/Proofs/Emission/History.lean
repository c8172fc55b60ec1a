import Backpatch.Proofs.Code.History
import Backpatch.Proofs.Emission.Confined
import Backpatch.Proofs.Emission.Run

/-!
# Histories of the emission

Every step of the emission works on the buffer by its operations only, and fills holes only with
labels that it has written. So the laws of histories hold of every run (`history_of_emitFunctions`).
-/

namespace Backpatch

open CodeBuffer

namespace Emission

variable {nodes : NodeId → Prop} {known : List Label} {α : Type}

/-- The code goes on by operations on the buffer. -/
def Recorded (b b' : CodeBuffer) : Prop := ∃ created closed, History b created closed b'

theorem Recorded.refl (b : CodeBuffer) : Recorded b b := ⟨[], [], .done⟩

theorem Recorded.trans {b b₁ b' : CodeBuffer} (h : Recorded b b₁) (h' : Recorded b₁ b') :
    Recorded b b' := by
  obtain ⟨created, closed, history⟩ := h
  obtain ⟨created', closed', history'⟩ := h'
  exact ⟨_, _, history.trans history'⟩

theorem clean_constant (index length : Nat) {body : String} (h : Clean body) :
    Clean (Global.text (.constant (.string index) length body)) := by
  have name : Clean (GlobalName.text (.string index)) :=
    GlobalName.Generated.clean (g := .string index) trivial
  have head := (name.append (b := " = constant [") (by decide)).append (clean_nat length)
  exact ((head.append (by decide)).append h).append (by decide)

/-- What is made of steps of the emission goes on by operations on the buffer. -/
theorem Confined.recorded {step : EmitM α} (h : Confined nodes known step)
    (clean : ∀ l ∈ known, Clean l.text) {s s' : Emission} {a : α} (ran : step s = .ok (a, s')) :
    Recorded s.buffer s'.buffer := by
  induction h generalizing s s' with
  | pure a | freshRegister | modifyExits mem f | exitsOf mem =>
    cases ran
    exact .refl _
  | fault f => cases ran
  | bind _ _ ihFirst ihRest =>
    obtain ⟨a, s₁, first, rest⟩ := bind_eq_ok ran
    exact (ihFirst clean first).trans (ihRest a clean rest)
  | write i ordinary => exact ⟨[], [], .write (write_eq_ok ran).1 .done⟩
  | jump =>
    cases ran
    exact ⟨_, _, .jump .done⟩
  | branch condition =>
    obtain ⟨b, done, rfl⟩ := onBuffer_eq_ok ran
    exact ⟨_, _, .branch done .done⟩
  | increaseIndent =>
    cases ran
    exact ⟨_, _, .increaseIndent .done⟩
  | decreaseIndent =>
    cases ran
    exact ⟨_, _, .decreaseIndent .done⟩
  | constant length body =>
    cases ran
    exact ⟨_, _, .global (clean_constant _ length body) .done⟩
  | label _ ih =>
    obtain ⟨l, s₁, first, rest⟩ := bind_eq_ok ran
    cases first
    -- The label is generated, so holes may be filled with it.
    have written : Clean (Label.text (.numbered s.names.labels)) :=
      Label.Generated.clean (l := .numbered s.names.labels) trivial
    refine .trans ⟨_, _, .label written .done⟩
      (ih _ (List.forall_mem_cons.mpr ⟨written, clean⟩) rest)
  | backpatch records given =>
    exact ⟨_, _, .backpatch (clean _ given) (backpatch_eq_ok ran).1 .done⟩

/-- The emission of functions is a history of the buffer. -/
theorem history_of_emitFunctions {ns : List Node} {s s' : Emission}
    (ran : emitFunctions ns s = .ok ((), s')) :
    ∃ created closed, History s.buffer created closed s'.buffer := by
  have confined : Confined (fun _ => True) [] (emitFunctions ns) := inferInstance
  exact confined.recorded (List.forall_mem_nil _) ran

end Emission

end Backpatch
