import Backpatch.Proofs.Code.History
import Backpatch.Proofs.Core.Lines

/-!
# Branches of core terms

The code of a core term branches only by the steps that are made for it: no other line of it has a
target. So closed code has no holes (`Routine.openSlots_code`).
-/

namespace Backpatch

open List

/-- The line has no target. -/
def Instr.isStraight : Instr → Bool
  | .jump _ | .branch .. | .verbatim .. => false
  | _ => true

def Instr.Straight (i : Instr) : Prop := i.isStraight = true

theorem Instr.openSlots_of_isStraight {i : Instr} (h : i.isStraight = true) : i.openSlots = [] := by
  cases i <;> first | rfl | exact absurd h nofun

namespace Step

variable {W : Type}

abbrev Straight (s : Step W) : Prop := s.Fulfils Instr.Straight fun _ => True

/-- Only jumps and branches have targets. -/
abbrev AllStraight (steps : List (Step W)) : Prop := AllFulfil Instr.Straight (fun _ => True) steps

/-- Closed code without other targets has no holes. -/
theorem openSlots_instr {s : Step Empty} (h : s.Straight) : (s.instr noExits).openSlots = [] := by
  cases s with
  | line i => exact Instr.openSlots_of_isStraight h
  | jump e =>
    cases e with
    | goto l => rfl
    | via w => exact w.elim
  | branch c t f =>
    cases t with
    | goto l =>
      cases f with
      | goto k => rfl
      | via w => exact w.elim
    | via w => exact w.elim

end Step

open Step

theorem covers_straight {Q : Signatures} : Instr.CoversAll Instr.Straight Q where
  values i made := by cases i <;> first | rfl | cases made
  handler := rfl
  calls _ _ _ _ _ := rfl
  effects i made := by cases i <;> first | rfl | cases made
  runs _ _ _ := rfl
  exit := rfl

theorem Routine.openSlots_code {f : Routine} {limit : Nat} {Q : Signatures} (h : f.Scoped limit Q)
    (s : NameSupply) : ∀ i ∈ (f.code s).steps.map (instr noExits), i.openSlots = [] :=
  forall_mem_map.mpr fun step mem => openSlots_instr (f.lines_code covers_straight h s step mem)

end Backpatch
