import Backpatch.Proofs.Core.Alike
import Backpatch.Proofs.Output.Options

/-!
# Programs with the same output

The output depends on nothing but the code of the functions: two programs whose functions are alike
have the same text under all options, or the same error.
-/

namespace Backpatch

theorem Routine.Alike.refl (f : Routine) : f.Alike f := ⟨rfl, .refl f.body⟩

theorem Routine.find?_unclean_alike {fs gs : List Routine} (h : List.Forall₂ Alike fs gs)
    {f : Routine} (first : fs.find? (fun f => !decide (Clean f.name)) = some f) :
    ∃ g, gs.find? (fun g => !decide (Clean g.name)) = some g ∧ f.Alike g := by
  induction h with
  | nil => cases first
  | @cons f₁ g₁ fs gs same rest ih =>
    rw [List.find?_cons] at first ⊢
    rw [← same.name]
    split at first
    · obtain rfl := Option.some.inj first
      exact ⟨g₁, rfl, same⟩
    · exact ih first

theorem Routine.clean_of_alike {fs gs : List Routine} (h : List.Forall₂ Alike fs gs)
    (clean : ∀ f ∈ fs, Clean f.name) : ∀ g ∈ gs, Clean g.name := by
  induction h with
  | nil => exact clean
  | cons same rest ih =>
    rw [List.forall_mem_cons] at clean ⊢
    exact ⟨same.name ▸ clean.1, ih clean.2⟩

namespace Program

variable {p q : Program} {fs gs : List Routine} {registers : Nat}

theorem compile_alike (hp : p.elaborate = .ok (fs, registers))
    (hq : q.elaborate = .ok (gs, registers))
    (h : List.Forall₂ Routine.Alike fs gs) (options : Options) :
    p.compile options = q.compile options := by
  by_cases clean : ∀ f ∈ fs, Clean f.name
  · obtain ⟨b, compiled, ok⟩ := compile_of_clean hp clean options
    obtain ⟨b', compiled', ok'⟩ := compile_of_clean hq (Routine.clean_of_alike h clean) options
    rw [ok, ok', compiled.buffer, compiled'.buffer, Routine.addAll_congr h]
  · have unclean : ∃ f ∈ fs, ¬Clean f.name := by simpa using clean
    obtain ⟨f, first⟩ := Routine.exists_first_unclean unclean
    obtain ⟨g, first', same⟩ := Routine.find?_unclean_alike h first
    rw [compile_of_unclean hp first, compile_of_unclean hq first', same.head]

theorem compile_congr (h : p.elaborate = q.elaborate) (options : Options) :
    p.compile options = q.compile options := by
  cases elaborated : q.elaborate with
  | error failure =>
    rw [compile_of_elaborate_error (h.trans elaborated), compile_of_elaborate_error elaborated]
  | ok result =>
    obtain ⟨fs, registers⟩ := result
    have same : List.Forall₂ Routine.Alike fs fs := List.forall₂_same.mpr fun f _ => .refl f
    exact compile_alike (h.trans elaborated) elaborated same options

end Program

end Backpatch
