import Backpatch.Proofs.Core.Names
import Backpatch.Proofs.Elaboration.Rules

/-!
# Registers handed out by the elaboration

Registers for addresses are handed out before any code is written, to variables and to parameters
that are assigned to. Each number goes to exactly one of them in the whole program
(`Program.elaborate_pointers`), and since values get the numbers above, no register of the finished
code has two meanings.
-/

namespace Backpatch

open List

namespace Layout

/-- The registers with the places of parameters. -/
def spilled (layout : Layout) : List Nat := layout.slots.filterMap id

/-- From one layout to the next, each register that has been handed out is that of one of the
pointers or that of one new place of a parameter. -/
def Allots (layout : Layout) (pointers : List Nat) (layout' : Layout) : Prop :=
  layout.registers ≤ layout'.registers ∧
    (pointers ++ layout'.spilled).Perm
      (layout.spilled ++ numbers layout.registers layout'.registers)

theorem Allots.refl (layout : Layout) : layout.Allots [] layout := by
  refine ⟨Nat.le_refl _, ?_⟩
  rw [numbers_self, List.append_nil]
  exact .refl _

theorem Allots.trans {a b c : Layout} {ps qs : List Nat} (ab : a.Allots ps b) (bc : b.Allots qs c) :
    a.Allots (ps ++ qs) c := by
  refine ⟨Nat.le_trans ab.1 bc.1, ?_⟩
  rw [← numbers_append ab.1 bc.1, ← append_assoc, append_assoc]
  calc ps ++ (qs ++ c.spilled)
    _ |>.Perm (ps ++ (b.spilled ++ numbers b.registers c.registers)) := bc.2.append_left ps
    _ = (ps ++ b.spilled) ++ numbers b.registers c.registers := (append_assoc ..).symm
    _ |>.Perm ((a.spilled ++ numbers a.registers b.registers) ++ numbers b.registers c.registers) :=
      ab.2.append_right _

theorem allots_addVariable (layout : Layout) (slot : Nat) :
    layout.Allots [layout.registers] (layout.addVariable slot) := by
  refine ⟨Nat.le_succ _, ?_⟩
  have next : (layout.addVariable slot).registers = layout.registers + 1 := rfl
  rw [next, numbers_succ]
  exact perm_append_comm

/-- A free place that is filled adds one register. -/
theorem perm_filterMap_set {slots : List (Option Nat)} {index : Nat} (h : slots[index]? = some none)
    (r : Nat) : ((slots.set index (some r)).filterMap id).Perm (slots.filterMap id ++ [r]) := by
  induction slots generalizing index with
  | nil => cases h
  | cons slot slots ih =>
    cases index with
    | zero =>
      obtain rfl : slot = none := Option.some.inj h
      exact (perm_append_singleton r (slots.filterMap id)).symm
    | succ index =>
      have rest := ih h
      cases slot with
      | none => exact rest
      | some slot => exact rest.cons slot

theorem allots_spill (layout : Layout) (index : Nat) : layout.Allots [] (layout.spill index) := by
  unfold Layout.spill
  split
  · rename_i free
    refine ⟨Nat.le_succ _, ?_⟩
    show ([] ++ (layout.slots.set index (some layout.registers)).filterMap id).Perm
      (layout.spilled ++ numbers layout.registers (layout.registers + 1))
    rw [numbers_succ]
    exact perm_filterMap_set free layout.registers
  · exact .refl layout

theorem allots_assign (layout : Layout) (place : Place) :
    layout.Allots [] (layout.assign place) := by
  cases place with
  | «variable» pointer => exact .refl layout
  | parameter index => exact layout.allots_spill index

end Layout

theorem Typed.pointers_action (typed : Typed) : typed.action.pointers = [] := by
  cases typed with
  | value type term | truth test | void name arguments => rfl

mutual

theorem Stmt.Yields.allots {s : Stmt} {e e' : Env} {layout layout' : Layout} {a : Action} :
    Stmt.Yields s e layout a e' layout' → layout.Allots a.pointers layout'
  | .declaration .. => layout.allots_addVariable _
  | .assignment .. => layout.allots_assign _
  | .expression _ => by
    rw [Typed.pointers_action]
    exact .refl layout
  | .when _ _ body | .loop _ _ body | .block body => body.allots
  | .either _ _ thenBranch elseBranch => thenBranch.allots.trans elseBranch.allots
  | .break _ | .continue _ | .return .. => .refl layout

theorem Stmt.YieldsAll.allots {ss : List Stmt} {e e' : Env} {layout layout' : Layout}
    {as : Actions} : Stmt.YieldsAll ss e layout as e' layout' → layout.Allots as.pointers layout'
  | .nil => .refl layout
  | .cons first rest => first.allots.trans rest.allots

end

/-- The numbers of the registers of a function that hold addresses of variables and parameters. -/
def Routine.pointers (f : Routine) : List Nat := f.slots.filterMap id ++ f.body.pointers

variable {registers registers' : Nat} {routines : List Routine}

theorem FunctionDef.elaborate_pointers {f : FunctionDef}
    {globals globals' : List (String × Meaning)}
    {routine : Routine} (h : f.elaborate globals registers = .ok (routine, globals', registers')) :
    registers ≤ registers' ∧ routine.pointers.Perm (numbers registers registers') := by
  obtain ⟨e, -, h⟩ := of_bind_eq_ok h
  obtain ⟨⟨as, e', layout⟩, body, h⟩ := of_bind_eq_ok h
  cases h
  obtain ⟨grows, allots⟩ := (Stmt.yieldsAll body).allots
  refine ⟨grows, perm_append_comm.trans (allots.trans ?_)⟩
  -- No parameter has a place at the beginning.
  have unspilled : (((f.parameters.map Parameter.formal).map Builder.Formal.type).map
      fun _ => (none : Option Nat)).filterMap id = [] := by
    rw [filterMap_eq_nil_iff]
    intro slot mem
    obtain ⟨_, -, rfl⟩ := mem_map.mp mem
    rfl
  show (filterMap id _ ++ _).Perm _
  rw [unspilled]
  exact .refl _

theorem FunctionDef.YieldsAll.pointers {fs : List FunctionDef}
    {globals last : List (String × Meaning)}
    (h : FunctionDef.YieldsAll fs globals registers routines last registers') :
    registers ≤ registers' ∧ (routines.flatMap Routine.pointers).Perm
      (numbers registers registers') := by
  induction h with
  | nil =>
    rw [numbers_self]
    exact ⟨Nat.le_refl _, .refl _⟩
  | cons first _ _ ih =>
    obtain ⟨start, pointers⟩ := FunctionDef.elaborate_pointers first
    obtain ⟨grown, others⟩ := ih
    refine ⟨Nat.le_trans start grown, ?_⟩
    rw [flatMap_cons, ← numbers_append start grown]
    exact pointers.append others

/-- Every register number below those of values belongs to one variable or parameter of the
program. -/
theorem Program.elaborate_pointers {p : Program} (h : p.elaborate = .ok (routines, registers)) :
    (routines.flatMap Routine.pointers).Perm (numbers 0 registers) := by
  obtain ⟨_, all, -⟩ := Program.of_elaborate_eq_ok h
  exact all.pointers.2

end Backpatch
