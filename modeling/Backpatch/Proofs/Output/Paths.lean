import Backpatch.Proofs.Output.Names

/-!
# Ways through a function

The lines of a function with the lines around them, and how control goes from one to the next. What
the rules of regions say of the code of one function (`FunctionCode.Structured`) holds with all
other functions around it.
-/

namespace Backpatch

open List

/-! ## Surroundings of all lines -/

section Functions

variable {f : FunctionCode}

theorem FunctionCode.labelsOf_written (f : FunctionCode) : labelsOf f.written = labelsOf f.body :=
  f.labels_written.trans f.labels_eq

theorem FunctionCode.targetsOf_written (f : FunctionCode) :
    targetsOf f.written = targetsOf f.body := by
  have head : f.head.targets = [] := rfl
  unfold written lines
  rw [targetsOf_append, cons_append, targetsOf_cons, targetsOf_append, head]
  exact (List.append_nil _).trans (List.append_nil _)

theorem FunctionCode.Structured.targets_mem (h : f.Structured) :
    ∀ l ∈ targetsOf f.written, l ∈ labelsOf f.written := by
  intro l mem
  rw [FunctionCode.targetsOf_written] at mem
  rw [FunctionCode.labelsOf_written]
  rcases Leaves.targets_mem h l mem with mem | ⟨S, exit⟩
  · exact mem
  · exact exit.elim

theorem FunctionCode.Structured.within (h : f.Structured) (distinct : (labelsOf f.written).Nodup) :
    Within [] f.written [] := by
  rw [FunctionCode.labelsOf_written] at distinct
  have body : Within [] f.body [] := h.situated distinct fun l exit => by
    obtain ⟨S, exit⟩ := exit
    exact exit.elim
  have outside : ∀ l ∈ labelsOf f.body, l ∉ targetsOf ([] ++ [f.head]) ∧
      l ∉ targetsOf ([.close, .blank] ++ []) :=
    fun l _ => ⟨not_mem_nil, not_mem_nil⟩
  unfold FunctionCode.written FunctionCode.lines
  rw [append_assoc, cons_append]
  refine within_cons (situated_of_plain rfl rfl) (within_append (body.extend outside) ?_)
  exact within_cons (situated_of_plain rfl rfl) (within_cons (situated_of_plain rfl rfl) within_nil)

theorem targets_mem_functions {fs : List FunctionCode} (structured : ∀ f ∈ fs, f.Structured) :
    ∀ l ∈ targetsOf (fs.flatMap FunctionCode.written), l ∈ labelsOf
      (fs.flatMap FunctionCode.written) := by
  induction fs with
  | nil => exact fun _ mem => mem
  | cons f fs ih =>
    obtain ⟨first, rest⟩ := forall_mem_cons.mp structured
    have here := first.targets_mem
    have others := ih rest
    intro l mem
    rw [flatMap_cons] at mem ⊢
    grind

/-- In a row of functions no one goes into another. -/
theorem within_functions {fs : List FunctionCode} (structured : ∀ f ∈ fs, f.Structured)
    (distinct : (labelsOf (fs.flatMap FunctionCode.written)).Nodup) :
    Within [] (fs.flatMap FunctionCode.written) [] := by
  induction fs with
  | nil => exact within_nil
  | cons f fs ih =>
    obtain ⟨first, rest⟩ := forall_mem_cons.mp structured
    have here := first.targets_mem
    have others := targets_mem_functions rest
    rw [flatMap_cons, labelsOf_append, nodup_append] at distinct
    obtain ⟨distinctFirst, distinctRest, disjoint⟩ := distinct
    rw [flatMap_cons]
    refine within_append ((first.within distinctFirst).extend fun l mem => ⟨not_mem_nil, ?_⟩)
      ((ih rest distinctRest).extend fun l mem => ⟨?_, not_mem_nil⟩)
    · rw [List.append_nil]
      exact fun target => disjoint l mem l (others l target) rfl
    · exact fun target => disjoint l (here l target) l mem rfl

end Functions

theorem Program.Compiled.nodup_function {p : Program} {options : Options} {fs : List Routine}
    {registers : Nat} {b : CodeBuffer} (h : p.Compiled options fs registers b) {f : FunctionCode}
    (mem : f ∈ b.functions) : (labelsOf f.written).Nodup := by
  have sublist : f.written.Sublist b.instrs := by
    rw [h.instrs_functions]
    exact sublist_flatten_of_mem (mem_map_of_mem mem)
  exact (sublist.filterMap _).nodup h.nodup_labels

variable {lines xs ys : List Instr} {n : Nat} {i : Instr}

theorem exists_append_of_getElem? (h : lines[n]? = some i) :
    ∃ before after, lines = before ++ i :: after ∧ before.length = n := by
  obtain ⟨bound, eq⟩ := List.getElem?_eq_some_iff.mp h
  refine ⟨lines.take n, lines.drop (n + 1), ?_, length_take_of_le (Nat.le_of_lt bound)⟩
  rw [← eq, getElem_cons_drop, take_append_drop]

theorem getElem?_append_length (k : Nat) : (xs ++ ys)[xs.length + k]? = ys[k]? := by
  rw [getElem?_append_right (Nat.le_add_right _ _), Nat.add_sub_cancel_left]

/-- Where the lines are that go to a label, if all but two lines do not. -/
theorem line_of_target {zs : List Instr} {j k : Instr} {l : Label}
    (split : lines = xs ++ j :: (ys ++ k :: zs))
    (others : l ∉ targetsOf (xs ++ ys ++ zs)) (here : lines[n]? = some i) (target : l ∈ i.targets) :
    n = xs.length ∨ n = xs.length + 1 + ys.length := by
  have outside : i ∉ xs ++ ys ++ zs := fun mem => others (mem_flatMap.mpr ⟨i, mem, target⟩)
  rw [mem_append, mem_append] at outside
  rw [split] at here
  rcases Nat.lt_or_ge n xs.length with before | behind
  · rw [getElem?_append_left before] at here
    exact absurd (.inl (.inl (mem_of_getElem? here))) outside
  · obtain ⟨m, rfl⟩ := Nat.exists_eq_add_of_le behind
    rw [getElem?_append_length] at here
    obtain _ | m := m
    · exact .inl rfl
    · rw [getElem?_cons_succ] at here
      rcases Nat.lt_or_ge m ys.length with before | behind
      · rw [getElem?_append_left before] at here
        exact absurd (.inl (.inr (mem_of_getElem? here))) outside
      · obtain ⟨m, rfl⟩ := Nat.exists_eq_add_of_le behind
        rw [getElem?_append_length] at here
        obtain _ | m := m
        · exact .inr (by omega)
        · exact absurd (.inr (mem_of_getElem? here)) outside

/-! ## Control flow -/

namespace FunctionCode

/-- Control can go from one line to the other. -/
inductive Flows (f : FunctionCode) : Nat → Nat → Prop
  | next {m : Nat} {i : Instr} (here : f.lines[m]? = some i) (goesOn : i.isTerminator = false)
      (inside : i ≠ .close) : f.Flows m (m + 1)
  | branch {m n : Nat} {i : Instr} {l : Label} (here : f.lines[m]? = some i)
      (target : l ∈ i.targets) (there : f.lines[n]? = some (.label l)) : f.Flows m n

theorem Flows.cases {f : FunctionCode} {m n : Nat} {i : Instr} (flows : f.Flows m n)
    (here : f.lines[m]? = some i) :
    n = m + 1 ∧ i.isTerminator = false ∨ ∃ l ∈ i.targets, f.lines[n]? = some (.label l) := by
  cases flows with
  | next here' goesOn inside =>
    rw [here] at here'
    cases here'
    exact .inl ⟨rfl, goesOn⟩
  | branch here' target there =>
    rw [here] at here'
    cases here'
    exact .inr ⟨_, target, there⟩

/-- A line that is no label is reached from the line before it. -/
theorem Flows.line_eq {f : FunctionCode} {m n : Nat} {j : Instr} (flows : f.Flows m n)
    (there : f.lines[n]? = some j) (notLabel : j.isLabel = false) : n = m + 1 := by
  cases flows with
  | next => rfl
  | branch _ _ there' =>
    rw [there] at there'
    cases there'
    cases notLabel

end FunctionCode

end Backpatch
