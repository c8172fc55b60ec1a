import Backpatch.Proofs.Core.Entry
import Mathlib.Data.List.Nodup

/-!
# Registers at each line

Which registers have a value at a line, however control has come there. A label makes a promise:
whoever goes to it brings certain registers. If every branch keeps the promises of its targets, the
registers that a line can count on are found by one walk through the text (`Promises.state`), and
nothing has to be said about the order in which blocks are executed. For every region there are
promises that are kept (`Leaves.exists_promises`).
-/

namespace Backpatch

open List

/-- The registers that whoever goes to a label brings. -/
abbrev Promises := Label → Registers

namespace Promises

/-- The registers behind a line. Nothing comes from there if control goes elsewhere, so then there
is nothing to be kept. -/
def after (A : Promises) (D : Registers) (i : Instr) : Registers :=
  match i.label? with
  | some l => A l
  | none => if i.isTerminator then fun _ => True else D.add i.result?

/-- With these registers the line can be executed, and it keeps the promises of the labels that it
leads to. -/
structure Fits (A : Promises) (D : Registers) (i : Instr) : Prop where
  uses : ∀ r ∈ i.uses, D r
  brings : ∀ l ∈ i.label?.toList ++ i.targets, ∀ r, A l r → D r
  arrivals : ∀ a ∈ i.arrivals, ∀ r ∈ a.2.registers, A a.1 r

/-- The registers behind the lines. -/
def state (A : Promises) (D : Registers) (lines : List Instr) : Registers := lines.foldl A.after D

/-- All lines can be executed one after the other. -/
def Checks (A : Promises) (D : Registers) : List Instr → Prop
  | [] => True
  | i :: rest => A.Fits D i ∧ A.Checks (A.after D i) rest

section

variable {A : Promises} {D D' : Registers} {i : Instr} {xs ys : List Instr}

@[simp] theorem state_cons : A.state D (i :: xs) = A.state (A.after D i) xs := rfl

@[simp] theorem state_append : A.state D (xs ++ ys) = A.state (A.state D xs) ys := foldl_append

@[simp] theorem checks_nil : A.Checks D [] := trivial

@[simp] theorem checks_cons : A.Checks D (i :: xs) ↔ A.Fits D i ∧ A.Checks (A.after D i) xs := .rfl

@[simp] theorem checks_append : A.Checks D (xs ++ ys) ↔ A.Checks D xs ∧
    A.Checks (A.state D xs) ys := by
  induction xs generalizing D with
  | nil => exact ⟨fun h => ⟨trivial, h⟩, fun h => h.2⟩
  | cons i xs ih => rw [cons_append, checks_cons, checks_cons, ih, and_assoc, state_cons]

theorem after_mono (h : ∀ r, D r → D' r) : ∀ r, A.after D i r → A.after D' i r := by
  unfold after
  cases i.label? with
  | some l => exact fun _ => id
  | none =>
    cases i.isTerminator with
    | true => exact fun _ => id
    | false => exact fun r hr => hr.imp_left (h r)

theorem state_mono (h : ∀ r, D r → D' r) : ∀ r, A.state D xs r → A.state D' xs r := by
  induction xs generalizing D D' with
  | nil => exact h
  | cons i xs ih => exact ih (after_mono h)

theorem Fits.mono (fits : A.Fits D i) (h : ∀ r, D r → D' r) : A.Fits D' i :=
  ⟨fun r hr => h r (fits.uses r hr), fun l hl r hr => h r (fits.brings l hl r hr), fits.arrivals⟩

theorem Checks.mono (checks : A.Checks D xs) (h : ∀ r, D r → D' r) : A.Checks D' xs := by
  induction xs generalizing D D' with
  | nil => trivial
  | cons i xs ih => exact ⟨checks.1.mono h, ih checks.2 (after_mono h)⟩

/-- Two pieces one after the other, where the first one leaves what the second one needs. -/
theorem Checks.append {D₁ : Registers} (first : A.Checks D xs) (leaves : ∀ r, D₁ r → A.state D xs r)
    (second : A.Checks D₁ ys) : A.Checks D (xs ++ ys) :=
  checks_append.mpr ⟨first, second.mono leaves⟩

end

section Lines

variable {A : Promises} {D : Registers} {l k : Label} {r : Register}

@[simp] theorem after_label : A.after D (.label l) = A l := rfl

variable {t f : Target} {i : Instr} {type : IrType} {a b : Operand} {predicate : Predicate}
  {opcode : Opcode} {callee : String}

@[simp] theorem after_jump : A.after D (.jump t) = fun _ => True := rfl

@[simp] theorem after_branch : A.after D (.branch r t f) = fun _ => True := rfl

theorem after_of_isInner (h : i.isInner = true) : A.after D i = D.add i.result? := by
  have goesOn : i.isTerminator = false := by
    cases i with
    | jump | branch | ret => cases h
    | _ => rfl
  unfold after
  rw [Instr.label?_of_isInner h, goesOn]
  rfl

@[simp] theorem fits_label : A.Fits D (.label l) ↔ ∀ r, A l r → D r :=
  ⟨fun h => h.brings l mem_cons_self,
    fun h => ⟨forall_mem_nil _, forall_mem_singleton.mpr h, forall_mem_nil _⟩⟩

@[simp] theorem fits_jump : A.Fits D (.jump t) ↔ ∀ l ∈ t.toList, ∀ r, A l r → D r :=
  ⟨fun h => h.brings, fun h => ⟨forall_mem_nil _, h, forall_mem_nil _⟩⟩

@[simp] theorem fits_branch : A.Fits D (.branch r t f) ↔ D r ∧
    ∀ l ∈ t.toList ++ f.toList, ∀ r, A l r → D r :=
  ⟨fun h => ⟨h.uses r mem_cons_self, h.brings⟩,
    fun h => ⟨forall_mem_singleton.mpr h.1, h.2, forall_mem_nil _⟩⟩

@[simp] theorem fits_phi : A.Fits D (.phi r type a l b k) ↔ (∀ v ∈ a.registers, A l v) ∧
    ∀ v ∈ b.registers, A k v :=
  ⟨fun h => ⟨h.arrivals _ mem_cons_self, h.arrivals _ (mem_cons_of_mem _ mem_cons_self)⟩,
    fun h => ⟨forall_mem_nil _, forall_mem_nil _,
      forall_mem_cons.mpr ⟨h.1, forall_mem_singleton.mpr h.2⟩⟩⟩

@[simp] theorem fits_compare : A.Fits D (.compare r predicate a b) ↔
    ∀ v ∈ a.registers ++ b.registers, D v :=
  ⟨fun h => h.uses, fun h => ⟨h, forall_mem_nil _, forall_mem_nil _⟩⟩

@[simp] theorem fits_compute : A.Fits D (.compute r opcode a b) ↔
    ∀ v ∈ a.registers ++ b.registers, D v :=
  ⟨fun h => h.uses, fun h => ⟨h, forall_mem_nil _, forall_mem_nil _⟩⟩

@[simp] theorem fits_call : A.Fits D (.call none callee []) :=
  ⟨forall_mem_nil _, forall_mem_nil _, forall_mem_nil _⟩

@[simp] theorem after_compare : A.after D (.compare r predicate a b) = D.add (some r) := rfl

theorem fits_of_isPlain (h : i.isPlain = true) (uses : ∀ r ∈ i.uses, D r) : A.Fits D i := by
  obtain ⟨targets, arrivals⟩ := append_eq_nil_iff.mp (Instr.refers_of_isPlain h)
  refine ⟨uses, ?_, ?_⟩
  · rw [Instr.label?_of_isInner (Instr.isInner_of_isPlain h), targets]
    exact forall_mem_nil _
  · rw [map_eq_nil_iff.mp arrivals]
    exact forall_mem_nil _

end Lines

end Promises

/-! ## Promises of regions -/

/-- What each of the labels promises. -/
abbrev Notes := List (Label × Registers)

/-- The promises are those that have been noted. -/
def Promises.Agree (A : Promises) (notes : Notes) : Prop := ∀ n ∈ notes, ∀ r, A n.1 r ↔ n.2 r

section Agree

variable {A : Promises} {l : Label} {S : Registers} {notes more : Notes}

@[simp] theorem agree_nil : A.Agree [] := forall_mem_nil _

@[simp] theorem agree_cons : A.Agree ((l, S) :: notes) ↔ (∀ r, A l r ↔ S r) ∧ A.Agree notes :=
  forall_mem_cons

@[simp] theorem agree_append : A.Agree (notes ++ more) ↔ A.Agree notes ∧ A.Agree more :=
  forall_mem_append

/-- The promises of the exits are no more than what the region brings there. -/
def Outlets.KeptBy (X : Outlets) (A : Promises) : Prop := ∀ l S, X l S → ∀ r, A l r → S r

variable {X : Outlets} {D : Registers}

@[simp] theorem keptBy_empty : Outlets.empty.KeptBy A := fun _ _ exit => exit.elim

@[simp] theorem keptBy_add : (X.add l S).KeptBy A ↔ X.KeptBy A ∧ ∀ r, A l r → S r := by
  constructor
  · exact fun h => ⟨fun k T exit => h k T (.inl exit), h l S (.inr ⟨rfl, rfl⟩)⟩
  · rintro ⟨others, here⟩ k T (exit | ⟨rfl, rfl⟩)
    · exact others k T exit
    · exact here

theorem Outlets.Admits.brings {target : Target} (h : X.Admits D target) (kept : X.KeptBy A) :
    ∀ l ∈ target.toList, ∀ r, A l r → D r := by
  obtain ⟨k, T, rfl, exit, brings⟩ := h
  exact forall_mem_singleton.mpr fun r hr => brings r (kept k T exit r hr)

end Agree

mutual

theorem Passes.exists_promises {D D' : Registers} {lines : List Instr} :
    Passes D lines D' → ∃ notes : Notes, notes.map Prod.fst = labelsOf lines ∧
      ∀ A : Promises, A.Agree notes → A.Checks D lines ∧ ∀ r, D' r → A.state D lines r
  | .nil => ⟨[], rfl, fun _ _ => ⟨trivial, fun _ => id⟩⟩
  | .line plain uses => by
    have inner := Instr.isInner_of_isPlain plain
    refine ⟨[], ?_, fun A _ => ⟨⟨Promises.fits_of_isPlain plain uses, trivial⟩, fun r hr => ?_⟩⟩
    · rw [labelsOf_cons, Instr.label?_of_isInner inner]
      rfl
    · rw [Promises.state_cons, Promises.after_of_isInner inner]
      exact hr
  | .append first second => by
    obtain ⟨notes, labels, checks⟩ := first.exists_promises
    obtain ⟨notes', labels', checks'⟩ := second.exists_promises
    refine ⟨notes ++ notes', by rw [map_append, labels, labels', labelsOf_append],
      fun A agree => ?_⟩
    obtain ⟨agrees, agrees'⟩ := agree_append.mp agree
    obtain ⟨one, leaves⟩ := checks A agrees
    obtain ⟨two, leaves'⟩ := checks' A agrees'
    refine ⟨one.append leaves two, fun r hr => ?_⟩
    rw [Promises.state_append]
    exact Promises.state_mono leaves r (leaves' r hr)
  | @Passes.division D isZero divisor error divide r opcode dividend _ _ left right => by
    -- Behind the branch there is what was there before, and its condition.
    refine ⟨[(error, D.add (some isZero)), (divide, D.add (some isZero))], rfl, fun A agree => ?_⟩
    obtain ⟨atError, agree⟩ := agree_cons.mp agree
    obtain ⟨atDivide, -⟩ := agree_cons.mp agree
    have isZeroGiven : D.add (some isZero) isZero := .inr rfl
    constructor
    · simp [guardLines, right, atError, atDivide, isZeroGiven]
      exact ⟨fun r hr => .inl ((atError r).mpr hr), .inl left, .inl right⟩
    · intro r hr
      simp [guardLines]
      exact hr.imp_left (atDivide r).mpr
  | @Passes.outcome D test onTrue onFalse join r condition => by
    obtain ⟨notes, labels, checks⟩ := condition.exists_promises
    refine ⟨notes ++ [(onTrue, D), (onFalse, D), (join, D)], by simp [labels], fun A agree => ?_⟩
    obtain ⟨agrees, agree⟩ := agree_append.mp agree
    simp only [agree_cons, agree_nil, and_true] at agree
    obtain ⟨atTrue, atFalse, atJoin⟩ := agree
    have kept : ((Outlets.empty.add onFalse D).add onTrue D).KeptBy A :=
      keptBy_add.mpr ⟨keptBy_add.mpr ⟨keptBy_empty, fun r => (atFalse r).mp⟩, fun r =>
        (atTrue r).mp⟩
    obtain ⟨one, all⟩ := checks A agrees kept
    constructor
    · simp [one, all, atTrue, atFalse, atJoin]
    · intro r hr
      simp
      exact hr.imp_left (atJoin r).mpr
  | @Passes.choice D test xs ys D₁ D₂ onTrue onFalse firstExit secondExit join r type left right
      condition first second given given' => by
    obtain ⟨notes, labels, checks⟩ := condition.exists_promises
    obtain ⟨notes₁, labels₁, checks₁⟩ := first.exists_promises
    obtain ⟨notes₂, labels₂, checks₂⟩ := second.exists_promises
    -- Only one arm is executed, so the join promises no more than was there before the test.
    refine ⟨notes ++ (onTrue, D) :: notes₁ ++ [(firstExit, D₁), (onFalse, D)] ++ notes₂ ++
      [(secondExit, D₂), (join, D)], by simp [labels, labels₁, labels₂], fun A agree => ?_⟩
    simp only [agree_append, agree_cons, agree_nil, and_true] at agree
    obtain ⟨⟨⟨⟨agrees, atTrue, agrees₁⟩, atFirst, atFalse⟩, agrees₂⟩, atSecond, atJoin⟩ := agree
    have kept : ((Outlets.empty.add onFalse D).add onTrue D).KeptBy A :=
      keptBy_add.mpr ⟨keptBy_add.mpr ⟨keptBy_empty, fun r => (atFalse r).mp⟩, fun r =>
        (atTrue r).mp⟩
    obtain ⟨test, all⟩ := checks A agrees kept
    obtain ⟨one, leaves₁⟩ := checks₁ A agrees₁
    obtain ⟨two, leaves₂⟩ := checks₂ A agrees₂
    have firstChecks := one.mono fun r => (atTrue r).mpr
    have firstLeaves := fun r (hr : D₁ r) =>
      Promises.state_mono (fun r => (atTrue r).mpr) r (leaves₁ r hr)
    have secondChecks := two.mono fun r => (atFalse r).mpr
    have secondLeaves := fun r (hr : D₂ r) =>
      Promises.state_mono (fun r => (atFalse r).mpr) r (leaves₂ r hr)
    constructor
    · simp [test, firstChecks, secondChecks, all, atFirst, atSecond, atJoin, given, given']
      exact ⟨firstLeaves, first.grows, secondLeaves, second.grows⟩
    · intro r hr
      simp
      exact hr.imp_left (atJoin r).mpr

theorem Leaves.exists_promises {D : Registers} {X : Outlets} {lines : List Instr} :
    Leaves D X lines → ∃ notes : Notes, notes.map Prod.fst = labelsOf lines ∧
      ∀ A : Promises, A.Agree notes → X.KeptBy A → A.Checks D lines ∧ ∀ r, A.state D lines r
  | .jump admits => ⟨[], rfl, fun _ _ kept =>
      ⟨⟨Promises.fits_jump.mpr (admits.brings kept), trivial⟩, fun _ => trivial⟩⟩
  | .branch given admits admits' => ⟨[], rfl, fun _ _ kept =>
      ⟨⟨Promises.fits_branch.mpr ⟨given, forall_mem_append.mpr ⟨admits.brings kept,
        admits'.brings kept⟩⟩, trivial⟩, fun _ => trivial⟩⟩
  | .ret uses => ⟨[], rfl, fun _ _ _ =>
      ⟨⟨⟨uses, forall_mem_nil _, forall_mem_nil _⟩, trivial⟩, fun _ => trivial⟩⟩
  | .after first second => by
    obtain ⟨notes, labels, checks⟩ := first.exists_promises
    obtain ⟨notes', labels', checks'⟩ := second.exists_promises
    refine ⟨notes ++ notes', by rw [map_append, labels, labels', labelsOf_append],
      fun A agree kept => ?_⟩
    obtain ⟨agrees, agrees'⟩ := agree_append.mp agree
    obtain ⟨one, leaves⟩ := checks A agrees
    obtain ⟨two, all⟩ := checks' A agrees' kept
    refine ⟨one.append leaves two, fun r => ?_⟩
    rw [Promises.state_append]
    exact Promises.state_mono leaves r (all r)
  | @Leaves.next D X l S xs ys first _ second => by
    obtain ⟨notes, labels, checks⟩ := first.exists_promises
    obtain ⟨notes', labels', checks'⟩ := second.exists_promises
    refine ⟨notes ++ (l, S) :: notes', by simp [labels, labels'], fun A agree kept => ?_⟩
    obtain ⟨agrees, agrees'⟩ := agree_append.mp agree
    obtain ⟨here, agrees'⟩ := agree_cons.mp agrees'
    obtain ⟨one, all⟩ := checks A agrees (keptBy_add.mpr ⟨kept, fun r => (here r).mp⟩)
    obtain ⟨two, all'⟩ := checks' A agrees' kept
    refine ⟨one.append (fun r _ => all r) ⟨Promises.fits_label.mpr fun _ _ => trivial, ?_⟩,
      fun r => ?_⟩
    · exact two.mono fun r => (here r).mpr
    · rw [Promises.state_append, Promises.state_cons]
      exact Promises.state_mono (fun r => (here r).mpr) r (all' r)
  | @Leaves.loop D X l xs body => by
    obtain ⟨notes, labels, checks⟩ := body.exists_promises
    -- Control comes to the label from above and from the body, each time with what was there.
    refine ⟨(l, D) :: notes, by simp [labels], fun A agree kept => ?_⟩
    obtain ⟨here, agrees⟩ := agree_cons.mp agree
    obtain ⟨one, all⟩ := checks A agrees (keptBy_add.mpr ⟨kept, fun r => (here r).mp⟩)
    refine ⟨⟨Promises.fits_jump.mpr ?_, Promises.fits_label.mpr fun _ _ => trivial, ?_⟩,
      fun r => ?_⟩
    · exact forall_mem_singleton.mpr fun r => (here r).mp
    · exact one.mono fun r => (here r).mpr
    · exact Promises.state_mono (fun r => (here r).mpr) r (all r)

end

/-- A region without exits has promises that are kept. -/
theorem Leaves.exists_checks {D : Registers} {lines : List Instr} (h : Leaves D Outlets.empty lines)
    (distinct : (labelsOf lines).Nodup) : ∃ A : Promises, A.Checks D lines := by
  obtain ⟨notes, labels, checks⟩ := h.exists_promises
  rw [← labels] at distinct
  let A : Promises := fun l r => ∃ S, (l, S) ∈ notes ∧ S r
  have agree : A.Agree notes := by
    rintro ⟨l, S⟩ mem r
    refine ⟨?_, fun hr => ⟨S, mem, hr⟩⟩
    rintro ⟨T, mem', hr⟩
    cases inj_on_of_nodup_map distinct mem mem' rfl
    exact hr
  exact ⟨A, (checks A agree keptBy_empty).1⟩

end Backpatch
