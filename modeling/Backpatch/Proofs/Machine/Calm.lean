import Backpatch.Proofs.Core.Types
import Backpatch.Proofs.Machine.Execution

/-!
# Runs inside the code of an expression

The code of an expression that calls no function is *calm*: its lines change registers and where
control is, and nothing else, but for the call of the handler in front of a division. It goes only
to its own labels. So a run that is inside such code at the end of a function stays there with the
memory as it is, until it comes to a call of the handler (`State.Steps.stays`).
-/

namespace Backpatch

open Step List

/-! ## Calm lines -/

/-- The line changes nothing but registers and where control is, or calls the handler for divisors
that are zero. -/
def Instr.Calm : Instr → Prop
  | .load .. | .compute .. | .compare .. | .phi .. | .stringAddress .. | .label _ | .jump
    _ | .branch .. => True
  | .call result callee arguments => result = none ∧ callee = zeroDivisionHandler ∧ arguments = []
  | _ => False

/-- All lines of the code are calm. -/
abbrev Step.AllCalm {W : Type} (steps : List (Step W)) : Prop :=
  AllFulfil Instr.Calm (fun _ => True) steps

theorem Step.AllCalm.instr {W : Type} {steps : List (Step W)} (h : AllCalm steps) (ρ : W → Target) :
    ∀ i ∈ steps.map (Step.instr ρ), i.Calm :=
  AllFulfil.instr h (fun _ => trivial) fun _ _ _ _ => trivial

section Code

variable {frame : Frame} {P : Place → Prop}

theorem covers_calm : Instr.Covers Instr.Calm (fun _ _ _ => False) where
  values i made := by cases i <;> trivial
  handler := ⟨rfl, rfl, rfl⟩
  calls _ _ _ _ none := none.elim

theorem Term.calm_code (t : Term) (h : t.All P fun _ _ _ => False) (s : NameSupply) :
    AllCalm (t.code frame s).steps :=
  t.lines_code covers_calm h s

theorem Test.calm_code (t : Test) (h : t.All P fun _ _ _ => False) (s : NameSupply) :
    AllCalm (t.code frame s).steps :=
  t.lines_code covers_calm h s

/-! ## Labels that code goes to -/

theorem Term.targets_code {Q : Signatures} {t : Term} (all : t.All P Q) (s : NameSupply) :
    ∀ l ∈ targetsOf ((t.code frame s).steps.map (instr noExits)),
      l ∈ labelsOf ((t.code frame s).steps.map (instr noExits)) := by
  have anywhere : t.All (fun _ => True) Q := all.imp (fun _ _ => trivial) fun _ _ _ => id
  have code : (t.code frame s).Passes fun _ => True := t.passes_code anywhere s
  obtain ⟨D, passes, -⟩ := code
  exact passes.targets_mem

theorem Step.labelsOf_map_instr {W : Type} (ρ ρ' : W → Target) (steps : List (Step W)) :
    labelsOf (steps.map (instr ρ)) = labelsOf (steps.map (instr ρ')) := by
  unfold labelsOf
  rw [filterMap_map, filterMap_map]
  congr 1
  funext step
  cases step <;> rfl

/-- Where exits are open, they are no targets. -/
theorem Step.mem_targetsOf_of_open {W : Type} {steps : List (Step W)} {l : Label}
    (h : l ∈ targetsOf (steps.map (instr fun _ => none))) (ρ : W → Target) :
    l ∈ targetsOf (steps.map (instr ρ)) := by
  have exit : ∀ e : Exit W, l ∈ (e.target fun _ => none).toList → l ∈ (e.target ρ).toList := by
    intro e mem
    cases e with
    | goto k => exact mem
    | via w => cases mem
  obtain ⟨i, mem, target⟩ := mem_flatMap.mp h
  obtain ⟨step, inside, rfl⟩ := mem_map.mp mem
  refine mem_flatMap.mpr ⟨step.instr ρ, mem_map_of_mem inside, ?_⟩
  cases step with
  | line i => exact target
  | jump e => exact exit e target
  | branch c onTrue onFalse =>
    rcases mem_append.mp target with first | second
    · exact mem_append_left _ (exit onTrue first)
    · exact mem_append_right _ (exit onFalse second)

/-- The code of a test with open exits goes only to its own labels. -/
theorem Test.targets_code {Q : Signatures} {t : Test} (all : t.All P Q) (s : NameSupply) :
    ∀ l ∈ targetsOf ((t.code frame s).steps.map (instr fun _ => none)),
      l ∈ labelsOf ((t.code frame s).steps.map (instr fun _ => none)) := by
  intro l mem
  have anywhere : t.All (fun _ => True) Q := all.imp (fun _ _ => trivial) fun _ _ _ => id
  -- Wherever the exits lead, the label is one of the code or that of the exits.
  have either : ∀ k : Label, l ∈ labelsOf ((t.code frame s).steps.map (instr fun _ => none)) ∨
      l = k := by
    intro k
    have leaves : Leaves (fun _ => True) (Outlets.empty.add k fun _ => True)
        ((t.code frame s).steps.map (instr fun _ => some k)) :=
      t.leaves_code anywhere s fun _ => Outlets.admits_new fun _ _ => trivial
    rcases leaves.targets_mem l (mem_targetsOf_of_open mem _) with own | exit
    · exact .inl (labelsOf_map_instr (fun _ => some k) (fun _ => none) (t.code frame s).steps ▸ own)
    · rw [Outlets.exists_add, Outlets.exists_empty, false_or] at exit
      exact .inr exit
  rcases either (.numbered 0) with own | rfl
  · exact own
  · exact (either (.named "")).resolve_right Label.noConfusion

end Code

/-! ## Runs -/

/-- The lines stand at the end of the body of a function. They are calm and go only to their own
labels. -/
structure Enclosed (xs body : List Instr) : Prop where
  calm : ∀ i ∈ xs, i.Calm
  targets : ∀ l ∈ targetsOf xs, l ∈ labelsOf xs
  inside : xs <:+ body
  labels : (labelsOf body).Nodup

/-- Control is still in these lines, and nothing has been stored. -/
structure Activation.Stays (a : Activation) (xs : List Instr) (a' : Activation) : Prop where
  function : a'.function = a.function
  memory : a'.memory = a.memory
  rest : a'.rest <:+ xs

section Runs

variable {M : Image} {overflow : Option Word} {a a' a'' : Activation} {callers : List Caller}
  {trace : List Event} {xs k : List Instr}

theorem Activation.Stays.trans (h : a.Stays xs a') (h' : a'.Stays xs a'') : a.Stays xs a'' :=
  ⟨h'.function.trans h.function, h'.memory.trans h.memory, h'.rest⟩

theorem exists_suffix_of_mem_labelsOf {l : Label} {lines : List Instr} (h : l ∈ labelsOf lines) :
    ∃ rest, Instr.label l :: rest <:+ lines := by
  obtain ⟨i, mem, isLabel⟩ := mem_filterMap.mp h
  obtain ⟨before, after, rfl⟩ := append_of_mem mem
  cases i with
  | label k =>
    obtain rfl := Option.some.inj isLabel
    exact ⟨after, before, rfl⟩
  | _ => cases isLabel

theorem Enclosed.goto (h : Enclosed xs a.function.body) {target : Target}
    (own : ∀ l, target = some l → l ∈ labelsOf xs)
    (went : a.goto target = some a') : a.Stays xs a' := by
  cases target with
  | none => cases went
  | some l =>
    obtain ⟨rest, ahead⟩ := exists_suffix_of_mem_labelsOf (own l rfl)
    obtain ⟨lines, found, rfl⟩ := Option.map_eq_some_iff.mp went
    rw [Activation.linesAfter_of_suffix h.labels (ahead.trans h.inside)] at found
    obtain rfl := Option.some.inj found
    exact ⟨rfl, rfl, .trans (suffix_cons _ _) ahead⟩

/-- A calm line that is executed changes a register. -/
theorem Instr.Calm.exec {i : Instr} (calm : i.Calm) (h : a.exec M overflow i = some a') :
    a'.function = a.function ∧ a'.memory = a.memory ∧ a'.rest = a.rest := by
  cases i with
  | load result pointer | compute result opcode left right =>
    unfold Activation.exec at h
    dsimp only at h
    split at h
    · obtain ⟨w, -, rfl⟩ := Option.map_eq_some_iff.mp h
      exact ⟨rfl, rfl, rfl⟩
    · cases h
  | compare result predicate left right | stringAddress result length constant =>
    unfold Activation.exec at h
    dsimp only at h
    split at h
    · cases h
      exact ⟨rfl, rfl, rfl⟩
    · cases h
  | phi result type first firstFrom second secondFrom =>
    unfold Activation.exec at h
    dsimp only at h
    split at h
    · obtain ⟨d, -, rfl⟩ := Option.map_eq_some_iff.mp h
      exact ⟨rfl, rfl, rfl⟩
    · split at h
      · obtain ⟨d, -, rfl⟩ := Option.map_eq_some_iff.mp h
        exact ⟨rfl, rfl, rfl⟩
      · cases h
  | label | jump | branch | call => cases h
  | _ => exact calm.elim

/-- A step inside calm code stays there, unless it is a call of the handler. -/
theorem State.step_stays (h : Enclosed xs a.function.body) (inside : a.rest <:+ xs) {st : State}
    (step : (running a callers trace).step M overflow = some st) :
    (∃ a', st = running a' callers trace ∧ a.Stays xs a') ∨
      ∃ k, a.rest = .call none zeroDivisionHandler [] :: k := by
  cases line : a.rest with
  | nil =>
    unfold State.step at step
    dsimp only at step
    rw [line] at step
    cases step
  | cons i k =>
    rw [State.step_cons line] at step
    rw [line] at inside
    have mem : i ∈ xs := inside.subset mem_cons_self
    have calm := h.calm i mem
    have rest : k <:+ xs := .trans (suffix_cons i k) inside
    have targets : ∀ l ∈ i.targets, l ∈ labelsOf xs :=
      fun l own => h.targets l (mem_flatMap.mpr ⟨i, mem, own⟩)
    let a₀ : Activation := { a with rest := k }
    have here : a.Stays xs a₀ := ⟨rfl, rfl, rest⟩
    -- What computes goes on behind itself, and what jumps goes to a label of the code.
    have executed : (a₀.exec M overflow i).map (running · callers trace) = some st →
        ∃ a', st = running a' callers trace ∧ a.Stays xs a' := by
      intro step
      obtain ⟨a', exec, rfl⟩ := Option.map_eq_some_iff.mp step
      obtain ⟨function, memory, behind⟩ := calm.exec exec
      exact ⟨a', rfl, function, memory, behind ▸ rest⟩
    have went : ∀ target, (∀ l, target = some l → l ∈ i.targets) →
        (a₀.goto target).map (running · callers trace) = some st →
          ∃ a', st = running a' callers trace ∧ a.Stays xs a' := by
      intro target own step
      obtain ⟨a', goto, rfl⟩ := Option.map_eq_some_iff.mp step
      have enclosed : Enclosed xs a₀.function.body := h
      exact ⟨a', rfl, here.trans (enclosed.goto (fun l eq => targets l (own l eq)) goto)⟩
    cases i with
    | load | compute | compare | phi | stringAddress | label => exact .inl (executed step)
    | jump target => exact .inl (went target (fun l eq => eq ▸ mem_singleton_self l) step)
    | branch condition onTrue onFalse =>
      unfold State.execute at step
      dsimp only at step
      split at step
      · rename_i b held
        refine .inl (went _ (fun l eq => ?_) step)
        cases b with
        | true =>
          obtain rfl : onTrue = some l := eq
          exact mem_append_left _ (mem_singleton_self l)
        | false =>
          obtain rfl : onFalse = some l := eq
          exact mem_append_right _ (mem_singleton_self l)
      · cases step
    | call result callee arguments =>
      obtain ⟨rfl, rfl, rfl⟩ := calm
      exact .inr ⟨k, rfl⟩
    | _ => exact calm.elim

/-- A run inside calm code stays there, or comes to a call of the handler. -/
theorem State.Steps.stays (h : Enclosed xs a.function.body) (inside : a.rest <:+ xs) {t : State}
    (steps : (running a callers trace).Steps M overflow t) :
    (∃ a', t = running a' callers trace ∧ a.Stays xs a') ∨
      ∃ a' k, (running a callers trace).Steps M overflow (running a' callers trace) ∧
        a.Stays xs a' ∧ a'.rest = .call none zeroDivisionHandler [] :: k := by
  generalize start : running a callers trace = st at steps
  induction steps generalizing a with
  | refl st => exact .inl ⟨a, start.symm, rfl, rfl, inside⟩
  | @head st st' t first rest ih =>
    subst start
    rcases State.step_stays h inside first with ⟨a₁, rfl, stays⟩ | ⟨k, line⟩
    · rcases ih (stays.function ▸ h) stays.rest rfl with ⟨a', rfl, later⟩ | ⟨a', k, steps,
        later, line⟩
      · exact .inl ⟨a', rfl, stays.trans later⟩
      · exact .inr ⟨a', k, .head first steps, stays.trans later, line⟩
    · exact .inr ⟨a, k, .refl _, ⟨rfl, rfl, inside⟩, line⟩

end Runs

end Backpatch
