import Backpatch.Proofs.Core.Regions

/-!
# Entries of regions

A region is entered only at its first line: no line outside branches to a label inside. From this
follows what can be said of the few labels that are made for one purpose only. The lines in front of
a division are reached by no other branch than their own, and a value that is chosen by where
control comes from stands behind a label that is reached by exactly two branches.
-/

namespace Backpatch

open List

/-! ## Labels that regions refer to -/

variable {i : Instr} {after lines before : List Instr} {D : Registers} {l : Label} {X : Outlets}

theorem Instr.label?_of_isInner (h : i.isInner = true) : i.label? = none := by
  cases i with
  | label l => cases h
  | _ => rfl

theorem Instr.refers_of_isPlain (h : i.isPlain = true) : i.refers = [] := by
  have inner := isInner_of_isPlain h
  cases i with
  | jump | branch => cases inner
  | phi => simp [isPlain, arrivals] at h
  | _ => rfl

section Lines

variable {r c d : Register} {l k : Label} {t : Target} {a b : Operand}

@[simp, grind =] theorem label?_label : (Instr.label l).label? = some l := rfl

@[simp, grind =] theorem label?_jump : (Instr.jump t).label? = none := rfl

variable {type : IrType} {opcode : Opcode}

@[simp, grind =] theorem label?_phi : (Instr.phi r type a l b k).label? = none := rfl

@[simp, grind =] theorem labelsOf_guardLines : labelsOf (guardLines r d l k) = [l, k] := rfl

@[simp, grind =] theorem refers_jump : (Instr.jump t).refers = t.toList := List.append_nil _

@[simp, grind =] theorem refers_branch {f : Target} :
    (Instr.branch c t f).refers = t.toList ++ f.toList := List.append_nil _

@[simp, grind =] theorem refers_label : (Instr.label l).refers = [] := rfl

@[simp, grind =] theorem refers_phi : (Instr.phi r type a l b k).refers = [l, k] := rfl

@[simp, grind =] theorem refers_compute : (Instr.compute r opcode a b).refers = [] := rfl

@[simp, grind =] theorem refersOf_guardLines : refersOf (guardLines r d l k) = [l, k, k] := rfl

@[simp, grind =] theorem targets_jump : (Instr.jump t).targets = t.toList := rfl

@[simp, grind =] theorem targets_label : (Instr.label l).targets = [] := rfl

@[simp, grind =] theorem targets_phi : (Instr.phi r type a l b k).targets = [] := rfl

end Lines

theorem mem_refersOf (h : l ∈ targetsOf lines) : l ∈ refersOf lines := by
  obtain ⟨i, mem, target⟩ := mem_flatMap.mp h
  exact mem_flatMap.mpr ⟨i, mem, mem_append_left _ target⟩

@[simp, grind =] theorem Outlets.exists_add {X : Outlets} {l k : Label} {S : Registers} :
    (∃ T, X.add l S k T) ↔ (∃ T, X k T) ∨ k = l := by
  simp [Outlets.add, exists_or]

@[simp, grind =] theorem Outlets.exists_empty {k : Label} : (∃ T, Outlets.empty k T) ↔ False := by
  simp [Outlets.empty]

theorem Outlets.Admits.exists_of_mem {target : Target} (h : X.Admits D target)
    (mem : l ∈ target.toList) : ∃ S, X l S := by
  obtain ⟨k, S, rfl, exit, -⟩ := h
  obtain rfl := mem_singleton.mp mem
  exact ⟨S, exit⟩

mutual

/-- Code that control passes through refers only to its own labels. -/
theorem Passes.refers_mem {D D' : Registers} {lines : List Instr} :
    Passes D lines D' → ∀ l ∈ refersOf lines, l ∈ labelsOf lines
  | .nil => fun l mem => mem
  | .line plain _ => fun l mem => by
    rw [refersOf_cons, Instr.refers_of_isPlain plain] at mem
    cases mem
  | .append first second => fun l mem => by
    have one := first.refers_mem l
    have two := second.refers_mem l
    grind
  | .division _ _ _ _ => fun l mem => by grind
  | .outcome condition => fun l mem => by
    have one := condition.refers_mem l
    simp at one mem ⊢
    grind
  | .choice condition first second _ _ => fun l mem => by
    have one := condition.refers_mem l
    have two := first.refers_mem l
    have three := second.refers_mem l
    simp at one mem ⊢
    grind

/-- Code that control leaves refers to its own labels and to those of its exits. -/
theorem Leaves.refers_mem {D : Registers} {X : Outlets} {lines : List Instr} :
    Leaves D X lines → ∀ l ∈ refersOf lines, l ∈ labelsOf lines ∨ ∃ S, X l S
  | .jump admits => fun l mem => by
    rw [refersOf_cons, refersOf_nil, List.append_nil, refers_jump] at mem
    exact .inr (admits.exists_of_mem mem)
  | .branch _ admits admits' => fun l mem => by
    rw [refersOf_cons, refersOf_nil, List.append_nil, refers_branch] at mem
    exact .inr ((mem_append.mp mem).elim admits.exists_of_mem admits'.exists_of_mem)
  | .ret _ => fun l mem => by cases mem
  | .after first second | .next first _ second => fun l mem => by
    have one := first.refers_mem l
    have two := second.refers_mem l
    grind
  | .loop body => fun l mem => by
    have one := body.refers_mem l
    grind

end

theorem Passes.targets_mem {D' : Registers} (h : Passes D lines D') :
    ∀ l ∈ targetsOf lines, l ∈ labelsOf lines := fun l mem => h.refers_mem l (mem_refersOf mem)

theorem Leaves.targets_mem (h : Leaves D X lines) :
    ∀ l ∈ targetsOf lines, l ∈ labelsOf lines ∨ ∃ S, X l S :=
  fun l mem => h.refers_mem l (mem_refersOf mem)

/-! ## Registers that regions read -/

section Lines

variable {r c d : Register} {l k : Label} {a b : Operand}

variable {t : Target} {type : IrType} {opcode : Opcode}

@[simp] theorem reads_jump : (Instr.jump t).reads = [] := rfl

@[simp] theorem reads_label : (Instr.label l).reads = [] := rfl

@[simp] theorem reads_ret {value : Option (IrType × Operand)} :
    (Instr.ret value).reads = (Instr.ret value).uses := List.append_nil _

@[simp] theorem reads_phi : (Instr.phi r type a l b k).reads = a.registers ++ (b.registers ++ []) :=
  rfl

@[simp] theorem reads_compute : (Instr.compute r opcode a b).reads = a.registers ++ b.registers :=
  List.append_nil _

@[simp] theorem readsOf_guardLines : readsOf (guardLines r d l k) = [d, r] := rfl

@[simp] theorem resultsOf_guardLines : resultsOf (guardLines r d l k) = [r] := rfl

@[simp] theorem registers_register : (Operand.register r).registers = [r] := rfl

@[simp] theorem registers_number {n : Int} : (Operand.number n).registers = [] := rfl

end Lines

mutual

theorem Passes.reads_mem {D D' : Registers} {lines : List Instr} :
    Passes D lines D' → ∀ r ∈ readsOf lines, D r ∨ r ∈ resultsOf lines
  | .nil => fun r mem => by cases mem
  | .line plain uses => fun r mem => by
    rw [readsOf_cons, Instr.reads_of_isPlain plain, readsOf_nil, List.append_nil] at mem
    exact .inl (uses r mem)
  | .append first second => fun r mem => by
    have one := first.reads_mem r
    have two := second.reads_mem r
    have three := first.bounded r
    grind
  | .division _ _ left right => fun r mem => by
    simp at mem ⊢
    grind
  | .outcome condition => fun r mem => by
    have one := condition.reads_mem r
    simp at mem ⊢
    grind
  | .choice condition first second left right => fun r mem => by
    have one := condition.reads_mem r
    have two := first.reads_mem r
    have three := second.reads_mem r
    have four := first.bounded r
    have five := second.bounded r
    simp at mem ⊢
    grind

/-- A region reads only registers that have a value before it, or get one in it. -/
theorem Leaves.reads_mem {D : Registers} {X : Outlets} {lines : List Instr} :
    Leaves D X lines → ∀ r ∈ readsOf lines, D r ∨ r ∈ resultsOf lines
  | .jump _ => fun r mem => by cases mem
  | .branch given _ _ => fun r mem => by
    obtain rfl := mem_singleton.mp mem
    exact .inl given
  | .ret uses => fun r mem => by
    rw [readsOf_cons, readsOf_nil, List.append_nil, reads_ret] at mem
    exact .inl (uses r mem)
  | .after first second => fun r mem => by
    have one := first.reads_mem r
    have two := second.reads_mem r
    have three := first.bounded r
    grind
  | .next first brings second => fun r mem => by
    have one := first.reads_mem r
    have two := second.reads_mem r
    have three := brings r
    simp at mem ⊢
    grind
  | .loop body => fun r mem => body.reads_mem r mem

end

/-! ## Lines with their surroundings -/

/-- The division has its guard before it, and no other branch goes to the labels of the guard. -/
def Guarded (before : List Instr) (i : Instr) (after : List Instr) : Prop :=
  i.isDivision = true → ∃ pre r opcode dividend isZero divisor error divide,
    i = .compute r opcode dividend (.register divisor) ∧
    before = pre ++ guardLines isZero divisor error divide ∧ isZero ≠ divisor ∧
    error ∉ targetsOf (pre ++ after) ∧ divide ∉ targetsOf (pre ++ after)

/-- The choice stands behind a label, and no other branches go there than those that end the two
blocks that the choice names. Each of these blocks has no other line, and what follows it is another
block. -/
def Joined (before : List Instr) (i : Instr) (after : List Instr) : Prop :=
  ∀ r type left leftFrom right rightFrom, i = .phi r type left leftFrom right rightFrom →
    ∃ pre middle join,
      before = pre ++ .label leftFrom :: .jump (some join) :: middle ++
        [.label rightFrom, .jump (some join), .label join] ∧
      (∃ next rest, middle ++ [.label rightFrom] = .label next :: rest) ∧
      join ∉ targetsOf (pre ++ middle ++ after)

/-- The line stands between the right lines. -/
def Situated (before : List Instr) (i : Instr) (after : List Instr) : Prop :=
  Guarded before i after ∧ Joined before i after

/-- Only divisions and choices need other lines beside them. -/
theorem situated_of_plain (division : i.isDivision = false) (choice : i.arrivals = []) :
    Situated before i after := by
  constructor
  · intro h
    rw [division] at h
    cases h
  · rintro r type left leftFrom right rightFrom rfl
    cases choice

/-- What is situated inside stays so if no branch from outside goes in. -/
theorem Situated.extend {xs ys : List Instr} (h : Situated before i after)
    (outside : ∀ l ∈ labelsOf before, l ∉ targetsOf xs ∧ l ∉ targetsOf ys) :
    Situated (xs ++ before) i (after ++ ys) := by
  constructor
  · intro division
    obtain ⟨pre, r, opcode, dividend, isZero, divisor, error, divide, eq, rfl, ne, one, two⟩ :=
      h.1 division
    refine ⟨xs ++ pre, r, opcode, dividend, isZero, divisor, error, divide, eq,
      (append_assoc ..).symm, ne, ?_, ?_⟩
    · have := outside error (by simp)
      simp at one ⊢
      grind
    · have := outside divide (by simp)
      simp at two ⊢
      grind
  · intro r type left leftFrom right rightFrom eq
    obtain ⟨pre, middle, join, rfl, next, one⟩ := h.2 r type left leftFrom right rightFrom eq
    refine ⟨xs ++ pre, middle, join, by simp, next, ?_⟩
    have := outside join (by simp)
    simp at one ⊢
    grind

/-- All these lines are situated where they stand, with other lines before and behind them. -/
def Within (xs lines ys : List Instr) : Prop :=
  ∀ before i after, lines = before ++ i :: after → Situated (xs ++ before) i (after ++ ys)

section Within

variable {i : Instr} {xs ys zs lines : List Instr}

theorem within_nil : Within xs [] ys := by
  intro before i after eq
  simp at eq

theorem within_cons (first : Situated xs i (lines ++ ys)) (rest : Within (xs ++ [i]) lines ys) :
    Within xs (i :: lines) ys := by
  intro before j after eq
  cases before with
  | nil =>
    cases eq
    rw [List.append_nil]
    exact first
  | cons k before =>
    cases eq
    rw [append_cons]
    exact rest before j after rfl

theorem within_append (first : Within xs lines (zs ++ ys)) (rest : Within (xs ++ lines) zs ys) :
    Within xs (lines ++ zs) ys := by
  intro before j after eq
  rcases append_eq_append_iff.mp eq with ⟨before', rfl, behind⟩ | ⟨after', rfl, behind⟩
  · rw [← append_assoc]
    exact rest before' j after behind
  · cases after' with
    | nil =>
      have situated := rest [] j after behind.symm
      rwa [List.append_nil, List.append_nil] at situated
    | cons k after' =>
      cases behind
      show Situated (xs ++ before) j (after' ++ zs ++ ys)
      rw [append_assoc]
      exact first before j after' rfl

theorem Within.extend (h : Within [] lines [])
    (outside : ∀ l ∈ labelsOf lines, l ∉ targetsOf xs ∧ l ∉ targetsOf ys) : Within xs lines ys := by
  intro before i after eq
  have situated := h before i after eq
  rw [List.append_nil, nil_append] at situated
  refine situated.extend fun l mem => outside l ?_
  rw [eq, labelsOf_append]
  exact mem_append_left _ mem

end Within

theorem Instr.situated_of_isPlain (h : i.isPlain = true) : Situated before i after := by
  unfold isPlain at h
  simp only [Bool.and_eq_true, Bool.not_eq_true', List.isEmpty_iff] at h
  exact situated_of_plain h.1.2 h.2

mutual

theorem Passes.situated {D D' : Registers} {lines : List Instr} :
    Passes D lines D' → (labelsOf lines).Nodup → Within [] lines []
  | .nil, _ => within_nil
  | .line plain _, _ => within_cons (Instr.situated_of_isPlain plain) within_nil
  | .append first second, distinct => by
    simp only [labelsOf_append, nodup_append] at distinct
    have one := first.targets_mem
    have two := second.targets_mem
    refine within_append ((first.situated distinct.1).extend ?_)
      ((second.situated distinct.2.1).extend ?_)
    · simp; grind
    · simp; grind
  | .division _ ne _ _, _ => by
    -- The guard stands right before the division.
    refine within_append ?_ (within_cons ⟨fun _ => ?_, ?_⟩ within_nil)
    · unfold guardLines
      iterate 6 refine within_cons (situated_of_plain rfl rfl) ?_
      exact within_nil
    · exact ⟨[], _, _, _, _, _, _, _, rfl, rfl, ne, not_mem_nil, not_mem_nil⟩
    · rintro _ _ _ _ _ _ ⟨⟩
  | .outcome condition, distinct => by
    have inside := condition.targets_mem
    simp [nodup_append] at distinct inside
    refine within_append ((condition.situated distinct.1 ?_).extend ?_) ?_
    · simp; grind
    · simp; grind
    · iterate 5 refine within_cons (situated_of_plain rfl rfl) ?_
      refine within_cons ⟨fun h => Bool.noConfusion h, ?_⟩ within_nil
      rintro _ _ _ _ _ _ ⟨⟩
      refine ⟨_, [], _, by simp; rfl, ⟨_, [], rfl⟩, ?_⟩
      simp
      grind
  | @Passes.choice _ test xs ys _ _ onTrue onFalse firstExit secondExit join _ _ _ _ condition
      first second _ _, distinct => by
    have one := condition.targets_mem
    have two := first.targets_mem
    have three := second.targets_mem
    simp [nodup_append] at distinct one
    simp only [append_assoc, cons_append]
    refine within_append ((condition.situated distinct.1 ?_).extend ?_)
      (within_cons (situated_of_plain rfl rfl) (within_append ((first.situated ?_).extend ?_) ?_))
    · simp; grind
    · simp; grind
    · grind
    · simp; grind
    · simp only [nil_append]
      iterate 4 refine within_cons (situated_of_plain rfl rfl) ?_
      refine within_append ((second.situated ?_).extend ?_) ?_
      · grind
      · simp; grind
      · iterate 4 refine within_cons (situated_of_plain rfl rfl) ?_
        refine within_cons ⟨fun h => Bool.noConfusion h, ?_⟩ within_nil
        rintro _ _ _ _ _ _ ⟨⟩
        -- Behind the test, both arms end in blocks of their own, from which the join is reached.
        refine ⟨test ++ .label onTrue :: xs ++ [.jump (some firstExit)],
          .label onFalse :: ys ++ [.jump (some secondExit)], join, by simp, ⟨_, _, rfl⟩, ?_⟩
        simp
        grind

theorem Leaves.situated {D : Registers} {X : Outlets} {lines : List Instr} :
    Leaves D X lines → (labelsOf lines).Nodup → (∀ l, (∃ S, X l S) → l ∉ labelsOf lines) →
      Within [] lines []
  | .jump _, _, _ | .branch _ _ _, _, _ | .ret _, _, _ =>
    within_cons (situated_of_plain rfl rfl) within_nil
  | .after first second, distinct, exits => by
    simp only [labelsOf_append, nodup_append] at distinct exits
    have one := first.targets_mem
    have two := second.targets_mem
    refine within_append ((first.situated distinct.1).extend ?_)
      ((second.situated distinct.2.1 ?_).extend ?_)
    · simp; grind
    · grind
    · simp; grind
  | .next first _ second, distinct, exits => by
    simp [nodup_append] at distinct exits
    have one := first.targets_mem
    have two := second.targets_mem
    simp only [Outlets.exists_add] at one
    refine within_append ((first.situated distinct.1 ?_).extend ?_)
      (within_cons (situated_of_plain rfl rfl) ((second.situated distinct.2.1.2 ?_).extend ?_))
    · simp; grind
    · simp; grind
    · grind
    · simp; grind
  | .loop body, distinct, exits => by
    simp at distinct exits
    refine within_cons (situated_of_plain rfl rfl) (within_cons (situated_of_plain rfl rfl)
      ((body.situated distinct.2 ?_).extend ?_))
    · simp; grind
    · simp; grind

end

end Backpatch
