import Backpatch.Proofs.Core.Names
import Backpatch.Proofs.Core.Straight

/-!
# Targets and labels of lines

What a buffer says at one of its branch slots and at one of its lines, and how each operation
changes that. Of open code that has been appended, the open slots are its records: those of
different exits have nothing in common, and none of them was there before (`isOpen_append`).
-/

namespace Backpatch

open List

/-! ## Instructions -/

namespace Instr

variable {i : Instr} {slot : Slot}

theorem target?_of_isStraight (h : i.isStraight = true) (slot : Slot) : i.target? slot = none := by
  cases i <;> first | rfl | cases h

theorem isOpen_iff_target? : i.isOpen slot = true ↔ i.target? slot = some none :=
  beq_iff_eq

theorem target?_fill (h : i.isOpen slot = true) (l : Label) (other : Slot) :
    (i.fill slot l).target? other = if other = slot then some (some l) else i.target? other := by
  cases i with
  | jump t => cases slot <;> cases other <;> first | rfl | cases h
  | branch c t f => cases slot <;> cases other <;> rfl
  | verbatim text rest =>
    rcases rest with _ | ⟨a, _ | ⟨b, _ | ⟨c, rest⟩⟩⟩ <;> cases slot <;> cases other <;> first
      | rfl | cases h
  | _ => cases slot <;> cases h

/-- What is said of a line stays true when a hole of the line is filled. -/
def Lasting (P : Instr → Prop) : Prop := ∀ i slot l, P i → P (i.fill slot l)

theorem label?_fill (i : Instr) (slot : Slot) (l : Label) : (i.fill slot l).label? = i.label? := by
  cases i with
  | verbatim text rest => rcases rest with _ | ⟨a, _ | ⟨b, _ | ⟨c, rest⟩⟩⟩ <;> cases slot <;> rfl
  | _ => cases slot <;> rfl

end Instr

/-! ## Buffers -/

namespace CodeBuffer

variable {b b' : CodeBuffer}

/-- The target at a slot, if there is a line with that slot. -/
def target? (b : CodeBuffer) (r : PatchRecord) : Option Target :=
  (b.lines[r.line]?).bind fun line => line.instr.target? r.slot

/-- The label that a line is. -/
def label? (b : CodeBuffer) (i : Nat) : Option Label :=
  (b.lines[i]?).bind fun line => line.instr.label?

/-- There is such a line. -/
def Has (b : CodeBuffer) (P : Instr → Prop) (i : Nat) : Prop :=
  ∃ line, b.lines[i]? = some line ∧ P line.instr

/-- The line is a jump with this target. -/
def JumpsTo (b : CodeBuffer) (i : Nat) (t : Target) : Prop :=
  (b.lines[i]?).map (·.instr) = some (.jump t)

variable {i : Nat} {t : Target} {r : PatchRecord} {l : Label} {records : PatchList} {line : Line}
  {P : Instr → Prop}

theorem JumpsTo.target? (h : b.JumpsTo i t) : b.target? ⟨i, .first⟩ = some t := by
  obtain ⟨line, found, is⟩ := Option.map_eq_some_iff.mp h
  unfold CodeBuffer.target?
  rw [found, Option.bind_some, is]
  rfl

theorem isOpen_iff_target? : b.isOpen r = true ↔ b.target? r = some none := by
  unfold isOpen target?
  cases b.lines[r.line]? with
  | none => exact ⟨nofun, nofun⟩
  | some line => exact Instr.isOpen_iff_target?

theorem line_lt_of_target? (h : b.target? r = some t) : r.line < b.lines.size := by
  unfold target? at h
  obtain ⟨line, found, -⟩ := Option.bind_eq_some_iff.mp h
  exact (Array.getElem?_eq_some_iff.mp found).1

theorem lt_of_label? (h : b.label? i = some l) : i < b.lines.size := by
  unfold label? at h
  obtain ⟨line, found, -⟩ := Option.bind_eq_some_iff.mp h
  exact (Array.getElem?_eq_some_iff.mp found).1

theorem target?_congr (h : b'.lines[r.line]? = b.lines[r.line]?) : b'.target? r = b.target? r := by
  unfold target?
  rw [h]

theorem label?_congr (h : b'.lines[i]? = b.lines[i]?) : b'.label? i = b.label? i := by
  unfold label?
  rw [h]

theorem Has.congr (same : b'.lines[i]? = b.lines[i]?) (h : b.Has P i) : b'.Has P i := by
  unfold Has
  rw [same]
  exact h

theorem getElem?_append_of_lt (h : i < b.lines.size) (code : List Instr) (globals : List Global) :
    (b.append code globals).lines[i]? = b.lines[i]? := by
  unfold append
  exact Array.getElem?_append_left h

theorem getElem?_append_of_le (h : b.lines.size ≤ i) (code : List Instr) (globals : List Global) :
    (b.append code globals).lines[i]? = (code[i - b.lines.size]?).map (Instr.atLevel b.level) := by
  unfold append
  rw [Array.getElem?_append_right h, getElem?_toArray, getElem?_map]

theorem target?_append_of_le (h : b.lines.size ≤ r.line) (code : List Instr)
    (globals : List Global) :
    (b.append code globals).target? r = (code[r.line - b.lines.size]?).bind (·.target? r.slot) := by
  unfold target?
  rw [getElem?_append_of_le h, Option.bind_map]
  exact congrArg _ (funext fun i => by rw [Function.comp, Instr.atLevel_instr])

theorem target?_push (h : b'.lines = b.lines.push line) (r : PatchRecord) :
    b'.target? r = if r.line = b.lines.size then line.instr.target? r.slot else b.target? r := by
  unfold target?
  rw [h, Array.getElem?_push]
  split <;> rfl

theorem Has.push (h : b'.lines = b.lines.push line) (has : b.Has P i) : b'.Has P i := by
  refine has.congr ?_
  obtain ⟨line, found, -⟩ := has
  rw [h, Array.getElem?_push, if_neg (Nat.ne_of_lt (Array.getElem?_eq_some_iff.mp found).1)]

theorem label?_push (h : b'.lines = b.lines.push line) (i : Nat) :
    b'.label? i = if i = b.lines.size then line.instr.label? else b.label? i := by
  unfold label?
  rw [h, Array.getElem?_push]
  split <;> rfl

theorem target?_fill (h : b.isOpen r = true) (l : Label) (q : PatchRecord) :
    (b.fill r l).target? q = if q = r then some (some l) else b.target? q := by
  obtain ⟨line, here, isOpen⟩ := isOpen_iff.mp h
  unfold target? fill
  rw [Array.getElem?_modify]
  by_cases same : r.line = q.line
  · rw [if_pos same, ← same, here]
    show (line.instr.fill r.slot l).target? q.slot = if q = r then _ else line.instr.target? q.slot
    rw [Instr.target?_fill isOpen]
    have slots : q.slot = r.slot ↔ q = r := by
      rw [PatchRecord.mk.injEq q.line q.slot r.line r.slot]
      exact ⟨fun eq => ⟨same.symm, eq⟩, And.right⟩
    simp only [slots]
  · rw [if_neg same, if_neg fun eq : q = r => same (eq ▸ rfl)]

theorem label?_fill (r : PatchRecord) (l : Label) (i : Nat) :
    (b.fill r l).label? i = b.label? i := by
  unfold label? fill
  rw [Array.getElem?_modify]
  split
  · rename_i same
    cases b.lines[i]? with
    | none => rfl
    | some line => exact Instr.label?_fill line.instr r.slot l
  · rfl

theorem Has.fill (lasting : Instr.Lasting P) (h : b.Has P i) (r : PatchRecord) (l : Label) :
    (b.fill r l).Has P i := by
  obtain ⟨line, found, holds⟩ := h
  unfold Has CodeBuffer.fill
  rw [Array.getElem?_modify, found]
  split
  · exact ⟨_, rfl, lasting _ _ _ holds⟩
  · exact ⟨_, rfl, holds⟩

/-- Backpatching puts the label into the slots of the list, all of which are open, and changes no
other. -/
theorem target?_backpatch (h : b.backpatch records l = .ok b') (q : PatchRecord) :
    b'.target? q = if q ∈ records then some (some l) else b.target? q := by
  induction records generalizing b with
  | nil =>
    cases h
    rfl
  | cons r records ih =>
    obtain ⟨isOpen, rest⟩ := backpatch_cons_ok h
    rw [ih rest, target?_fill isOpen]
    simp only [mem_cons]
    grind

theorem label?_backpatch (h : b.backpatch records l = .ok b') (i : Nat) :
    b'.label? i = b.label? i := by
  induction records generalizing b with
  | nil =>
    cases h
    rfl
  | cons r records ih =>
    obtain ⟨-, rest⟩ := backpatch_cons_ok h
    rw [ih rest, label?_fill]

theorem Has.backpatch (lasting : Instr.Lasting P) (h : b.backpatch records l = .ok b')
    (has : b.Has P i) : b'.Has P i := by
  induction records generalizing b with
  | nil =>
    cases h
    exact has
  | cons r records ih =>
    obtain ⟨-, rest⟩ := backpatch_cons_ok h
    exact ih rest (has.fill lasting r l)

theorem isOpen_of_mem_backpatch (h : b.backpatch records l = .ok b') (mem : r ∈ records) :
    b.target? r = some none := by
  have perm := openRecords_backpatch h
  exact isOpen_iff_target?.mp (mem_openRecords.mp (perm.mem_iff.mpr (mem_append_left _ mem)))

end CodeBuffer

/-! ## Open code -/

namespace Step

variable {W : Type} [DecidableEq W]

theorem nodup_slots (w : W) (s : Step W) : (s.slots w).Nodup := by
  cases s with
  | line i => exact .nil
  | jump e => by_cases h : e = .via w <;> simp [slots, h]
  | branch c t f => by_cases ht : t = .via w <;> by_cases hf : f = .via w <;> simp [slots, ht, hf]

variable {v w : W} {start : Nat} {steps : List (Step W)} {r : PatchRecord} {s : Step W}

theorem slots_disjoint {slot : Slot} (hv : slot ∈ s.slots v) (hw : slot ∈ s.slots w) : v = w := by
  cases s with
  | line i => cases hv
  | jump e | branch c t f =>
    unfold slots at hv hw
    grind

theorem mem_records :
    r ∈ records w start steps ↔ ∃ i s, steps[i]? = some s ∧ r.line = start + i ∧
      r.slot ∈ s.slots w := by
  induction steps generalizing start with
  | nil => simp [records]
  | cons s steps ih =>
    rw [records, mem_append, ih, mem_map]
    constructor
    · rintro (⟨slot, mem, rfl⟩ | ⟨i, step, found, line, mem⟩)
      · exact ⟨0, s, rfl, rfl, mem⟩
      · exact ⟨i + 1, step, found, by omega, mem⟩
    · rintro ⟨i, step, found, line, mem⟩
      cases i with
      | zero =>
        cases found
        exact .inl ⟨r.slot, mem, by cases r; cases line; rfl⟩
      | succ i => exact .inr ⟨i, step, found, by omega, mem⟩

theorem line_of_mem_records (h : r ∈ records w start steps) :
    start ≤ r.line ∧ r.line < start + steps.length := by
  obtain ⟨i, s, found, line, -⟩ := mem_records.mp h
  have := (List.getElem?_eq_some_iff.mp found).1
  omega

theorem nodup_records (w : W) (start : Nat) (steps : List (Step W)) :
    (records w start steps).Nodup := by
  induction steps generalizing start with
  | nil => exact .nil
  | cons s steps ih =>
    rw [records]
    refine nodup_append.mpr ⟨?_, ih _, ?_⟩
    · refine pairwise_map.mpr ((nodup_slots w s).imp fun ne eq => ne (PatchRecord.mk.inj eq).2)
    · rintro r hr q hq rfl
      obtain ⟨slot, -, rfl⟩ := mem_map.mp hr
      exact absurd (line_of_mem_records hq).1 (Nat.not_succ_le_self start)

theorem records_disjoint (hv : r ∈ records v start steps) (hw : r ∈ records w start steps) :
    v = w := by
  obtain ⟨i, s, found, line, mem⟩ := mem_records.mp hv
  obtain ⟨j, s', found', line', mem'⟩ := mem_records.mp hw
  obtain rfl : i = j := by omega
  cases found.symm.trans found'
  exact slots_disjoint mem mem'

theorem isOpen_instr (h : s.Straight) (slot : Slot) :
    (s.instr fun _ => none).target? slot = some none ↔ ∃ w, slot ∈ s.slots w := by
  cases s with
  | line i =>
    have none := Instr.target?_of_isStraight (i := i) h slot
    simp [instr, none, slots]
  | jump e => cases e <;> cases slot <;> simp [instr, Instr.target?, Exit.target, slots]
  | branch c t f =>
    cases t <;> cases f <;> cases slot <;> simp [instr, Instr.target?, Exit.target, slots]

end Step

/-- After open code has been appended, its records are open, and what was open before. -/
theorem CodeBuffer.isOpen_append {W : Type} [DecidableEq W] (b : CodeBuffer) {steps : List (Step W)}
    (straight : Step.AllStraight steps) (globals : List Global) (r : PatchRecord) :
    r ∈ (b.append (steps.map (Step.instr fun _ => none)) globals).openRecords ↔
      r ∈ b.openRecords ∨ ∃ w, r ∈ Step.records w b.lines.size steps := by
  simp only [mem_openRecords, isOpen_iff_target?]
  by_cases old : r.line < b.lines.size
  · rw [target?_congr (getElem?_append_of_lt old _ globals)]
    refine ⟨.inl, fun h => h.resolve_right ?_⟩
    rintro ⟨w, mem⟩
    exact Nat.not_le_of_lt old (Step.line_of_mem_records mem).1
  · have new : b.lines.size ≤ r.line := Nat.le_of_not_lt old
    rw [target?_append_of_le new, getElem?_map, Option.bind_map]
    constructor
    · intro isOpen
      obtain ⟨s, found, hole⟩ := Option.bind_eq_some_iff.mp isOpen
      obtain ⟨w, mem⟩ := (Step.isOpen_instr (straight s (mem_of_getElem? found)) r.slot).mp hole
      exact .inr ⟨w, Step.mem_records.mpr ⟨_, s, found, by omega, mem⟩⟩
    · rintro (before | ⟨w, mem⟩)
      · exact absurd (line_lt_of_target? before) old
      · obtain ⟨i, s, found, line, slot⟩ := Step.mem_records.mp mem
        obtain rfl : i = r.line - b.lines.size := by omega
        rw [found]
        exact (Step.isOpen_instr (straight s (mem_of_getElem? found)) r.slot).mpr ⟨w, slot⟩

end Backpatch
