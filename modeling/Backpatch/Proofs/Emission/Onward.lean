import Backpatch.Proofs.Code.Target
import Backpatch.Proofs.Emission.Confined
import Backpatch.Proofs.Emission.Run

/-!
# Where branches go as the code grows

Lines are only added, labels are only written where they are fresh, and a hole that is filled stays
as it is. `Onward` collects what this means for the branches and labels of the code, and
`Confined.onward` shows it of all steps of the emission. A hole can only be filled with a label that
is written since then or that was known before, so labels that are known to nobody any more are out
of reach for the code that follows.
-/

namespace Backpatch

/-- The label has a number from `first` on and below `last`. -/
def Label.Within (first last : Nat) (l : Label) : Prop :=
  ∃ k, l = .numbered k ∧ first ≤ k ∧ k < last

theorem Label.Within.mono {first last first' last' : Nat} {l : Label} (h : l.Within first last)
    (hf : first' ≤ first) (hl : last ≤ last') : l.Within first' last' := by
  obtain ⟨k, rfl, low, high⟩ := h
  exact ⟨k, rfl, Nat.le_trans hf low, Nat.lt_of_lt_of_le high hl⟩

theorem Label.Within.disjoint {first middle middle' last : Nat} {l : Label}
    (h : l.Within first middle) (h' : l.Within middle' last) : middle' < middle := by
  obtain ⟨k, rfl, -, below⟩ := h
  obtain ⟨_, eq, above, -⟩ := h'
  cases eq
  exact Nat.lt_of_le_of_lt above below

theorem Instr.target?_of_isOrdinary {i : Instr} (h : i.isOrdinary = true) (slot : Slot)
    (l : Label) : i.target? slot ≠ some (some l) := by
  have straight : i.isStraight = true := by cases i <;> first | rfl | cases h
  rw [target?_of_isStraight straight]
  exact (Option.some_ne_none _).symm

theorem Instr.label?_of_isOrdinary {i : Instr} (h : i.isOrdinary = true) : i.label? = none := by
  cases i <;> first | rfl | cases h

namespace Emission

/-- The code of `s` has become that of `s'`. The labels that holes have been filled with are known
or new. -/
structure Onward (known : Label → Prop) (s s' : Emission) : Prop where
  labels : s.names.labels ≤ s'.names.labels
  size : s.buffer.lines.size ≤ s'.buffer.lines.size
  /-- The lines that are there keep their slots, and what is in them. -/
  slots : ∀ {r}, r.line < s.buffer.lines.size →
    (s'.buffer.target? r).isSome = (s.buffer.target? r).isSome
  kept : ∀ {r l}, s.buffer.target? r = some (some l) → s'.buffer.target? r = some (some l)
  lasts : ∀ {P i}, Instr.Lasting P → s.buffer.Has P i → s'.buffer.Has P i
  filled : ∀ {r l}, s'.buffer.target? r = some (some l) →
    s.buffer.target? r = some (some l) ∨ known l ∨ l.Within s.names.labels s'.names.labels
  /-- The labels among the lines that are there stay, and the others are new. -/
  labelled : ∀ {i}, i < s.buffer.lines.size → s'.buffer.label? i = s.buffer.label? i
  fresh : ∀ {i l}, s.buffer.lines.size ≤ i → s'.buffer.label? i = some l →
    l.Within s.names.labels s'.names.labels
  covers : ∀ {k}, s.names.labels ≤ k → k < s'.names.labels →
    ∃ i, s.buffer.lines.size ≤ i ∧ s'.buffer.label? i = some (.numbered k)

section Onward

variable {known known' : Label → Prop} {s s₁ s' : Emission}

theorem Onward.refl (known : Label → Prop) (s : Emission) : Onward known s s where
  labels := Nat.le_refl _
  size := Nat.le_refl _
  slots _ := rfl
  kept h := h
  lasts _ h := h
  filled h := .inl h
  labelled _ := rfl
  fresh above h := absurd (CodeBuffer.lt_of_label? h) (Nat.not_lt.mpr above)
  covers above below := absurd below (Nat.not_lt.mpr above)

/-- What the second stretch knows may have been written in the first. -/
theorem Onward.trans (h : Onward known s s₁) (h' : Onward known' s₁ s')
    (given : ∀ l, known' l → known l ∨ l.Within s.names.labels s₁.names.labels) :
    Onward known s s' where
  labels := Nat.le_trans h.labels h'.labels
  size := Nat.le_trans h.size h'.size
  slots old := (h'.slots (Nat.lt_of_lt_of_le old h.size)).trans (h.slots old)
  kept done := h'.kept (h.kept done)
  lasts lasting has := h'.lasts lasting (h.lasts lasting has)
  filled done := by
    rcases h'.filled done with before | known | new
    · rcases h.filled before with before | known | new
      · exact .inl before
      · exact .inr (.inl known)
      · exact .inr (.inr (new.mono (Nat.le_refl _) h'.labels))
    · rcases given _ known with known | new
      · exact .inr (.inl known)
      · exact .inr (.inr (new.mono (Nat.le_refl _) h'.labels))
    · exact .inr (.inr (new.mono h.labels (Nat.le_refl _)))
  labelled old := (h'.labelled (Nat.lt_of_lt_of_le old h.size)).trans (h.labelled old)
  fresh {i l} above found := by
    by_cases old : i < s₁.buffer.lines.size
    · rw [h'.labelled old] at found
      exact (h.fresh above found).mono (Nat.le_refl _) h'.labels
    · exact (h'.fresh (Nat.le_of_not_lt old) found).mono h.labels (Nat.le_refl _)
  covers {k} above below := by
    by_cases old : k < s₁.names.labels
    · obtain ⟨i, hi, found⟩ := h.covers above old
      refine ⟨i, hi, ?_⟩
      rw [h'.labelled (CodeBuffer.lt_of_label? found), found]
    · obtain ⟨i, hi, found⟩ := h'.covers (Nat.le_of_not_lt old) below
      exact ⟨i, Nat.le_trans h.size hi, found⟩

theorem Onward.then (h : Onward known s s₁) (h' : Onward known s₁ s') : Onward known s s' :=
  h.trans h' fun _ => .inl

theorem Onward.mono (h : Onward known s s') (more : ∀ l, known l → known' l) : Onward known' s s' :=
  { h with filled := fun done => (h.filled done).imp_right (Or.imp_left (more _)) }

/-! ## Steps -/

/-- The lines and the number of labels are as before. -/
theorem Onward.of_eq (lines : s'.buffer.lines = s.buffer.lines)
    (labels : s'.names.labels = s.names.labels) : Onward known s s' := by
  have targets : ∀ r, s'.buffer.target? r = s.buffer.target? r :=
    fun r => CodeBuffer.target?_congr (by rw [lines])
  have names : ∀ i, s'.buffer.label? i = s.buffer.label? i :=
    fun i => CodeBuffer.label?_congr (by rw [lines])
  refine ⟨labels.symm ▸ Nat.le_refl _, (congrArg Array.size lines).symm ▸ Nat.le_refl
    _, ?_, ?_, ?_, ?_, ?_, ?_, ?_⟩
  · exact fun _ => by rw [targets]
  · exact fun done => by rw [targets, done]
  · exact fun _ => CodeBuffer.Has.congr (by rw [lines])
  · exact fun done => .inl (by rw [← targets, done])
  · exact fun _ => names _
  · intro i l above found
    rw [names] at found
    exact absurd (CodeBuffer.lt_of_label? found) (Nat.not_lt.mpr above)
  · intro k above below
    rw [labels] at below
    exact absurd below (Nat.not_lt.mpr above)

/-- A line has been added. If it is a label, it has the number that has been given out with it. -/
theorem Onward.push {line : Line} (lines : s'.buffer.lines = s.buffer.lines.push line)
    (labels : s.names.labels ≤ s'.names.labels)
    (unfilled : ∀ slot l, line.instr.target? slot ≠ some (some l))
    (own : ∀ l, line.instr.label? = some l → l.Within s.names.labels s'.names.labels)
    (given : ∀ k, s.names.labels ≤ k → k < s'.names.labels →
      line.instr.label? = some (.numbered k)) :
    Onward known s s' := by
  have size : s'.buffer.lines.size = s.buffer.lines.size + 1 := by rw [lines, Array.size_push]
  refine ⟨labels, by omega, ?_, ?_, ?_, ?_, ?_, ?_, ?_⟩
  · intro r old
    rw [CodeBuffer.target?_push lines, if_neg (Nat.ne_of_lt old)]
  · intro r l done
    rw [CodeBuffer.target?_push lines, if_neg (Nat.ne_of_lt (CodeBuffer.line_lt_of_target? done)),
      done]
  · exact fun _ => CodeBuffer.Has.push lines
  · intro r l done
    rw [CodeBuffer.target?_push lines] at done
    split at done
    · exact absurd done (unfilled _ _)
    · exact .inl done
  · intro i old
    rw [CodeBuffer.label?_push lines, if_neg (Nat.ne_of_lt old)]
  · intro i l above found
    rw [CodeBuffer.label?_push lines] at found
    split at found
    · exact own l found
    · exact absurd (CodeBuffer.lt_of_label? found) (Nat.not_lt.mpr above)
  · intro k above below
    exact ⟨_, Nat.le_refl _, by rw [CodeBuffer.label?_push lines, if_pos rfl, given k above below]⟩

theorem Onward.line {line : Line} (lines : s'.buffer.lines = s.buffer.lines.push line)
    (labels : s'.names.labels = s.names.labels)
    (unfilled : ∀ slot l, line.instr.target? slot ≠ some (some l))
    (unlabelled : line.instr.label? = none) : Onward known s s' := by
  refine .push lines (Nat.le_of_eq labels.symm) unfilled (fun l found => ?_) fun k above below => ?_
  · rw [unlabelled] at found
    cases found
  · omega

theorem Onward.label {level : Nat}
    (lines : s'.buffer.lines = s.buffer.lines.push ⟨level, .label (.numbered s.names.labels)⟩)
    (labels : s'.names.labels = s.names.labels + 1) : Onward known s s' := by
  refine .push lines (by omega) (fun _ _ => Option.some_ne_none _ ∘ Eq.symm) (fun l found => ?_)
    fun k above below => ?_
  · cases found
    exact ⟨_, rfl, Nat.le_refl _, by omega⟩
  · obtain rfl : k = s.names.labels := by omega
    rfl

theorem Onward.backpatch {records : PatchList} {l : Label} (given : known l)
    (patched : s.buffer.backpatch records l = .ok s'.buffer)
    (labels : s'.names.labels = s.names.labels) :
    Onward known s s' := by
  have targets := CodeBuffer.target?_backpatch patched
  have size : s'.buffer.lines.size = s.buffer.lines.size := CodeBuffer.size_backpatch patched
  refine ⟨labels.symm ▸ Nat.le_refl _, size.symm ▸ Nat.le_refl _, ?_, ?_, fun lasting =>
    CodeBuffer.Has.backpatch lasting patched, ?_, ?_, ?_, ?_⟩
  · intro r old
    rw [targets]
    split
    · rename_i mem
      rw [CodeBuffer.isOpen_of_mem_backpatch patched mem]
      rfl
    · rfl
  · intro r l done
    rw [targets, if_neg, done]
    intro mem
    rw [CodeBuffer.isOpen_of_mem_backpatch patched mem] at done
    cases done
  · intro r l done
    rw [targets] at done
    split at done
    · cases done
      exact .inr (.inl given)
    · exact .inl done
  · exact fun _ => CodeBuffer.label?_backpatch patched _
  · intro i l above found
    rw [CodeBuffer.label?_backpatch patched] at found
    exact absurd (CodeBuffer.lt_of_label? found) (Nat.not_lt.mpr above)
  · intro k above below
    rw [labels] at below
    exact absurd below (Nat.not_lt.mpr above)

end Onward

/-- What is made of steps of the emission fills holes with the labels that are given to it and with
its own. -/
theorem Confined.onward {nodes : NodeId → Prop} {known : List Label} {α : Type} {step : EmitM α}
    (h : Confined nodes known step) {s s' : Emission} {a : α} (ran : step s = .ok (a, s')) :
    Onward (· ∈ known) s s' := by
  induction h generalizing s s' with
  | pure a =>
    cases ran
    exact .refl _ _
  | fault f => cases ran
  | bind _ _ ihFirst ihRest =>
    obtain ⟨b, s₁, first, rest⟩ := bind_eq_ok ran
    exact (ihFirst first).then (ihRest b rest)
  | write i ordinary =>
    obtain ⟨-, rfl⟩ := write_eq_ok ran
    exact .line rfl rfl (Instr.target?_of_isOrdinary ordinary) (Instr.label?_of_isOrdinary ordinary)
  | jump =>
    cases ran
    exact .line rfl rfl (by rintro (_ | _) l h <;> cases h) rfl
  | branch condition =>
    obtain ⟨-, rfl⟩ := branch_eq_ok ran
    exact .line rfl rfl (by rintro (_ | _) l h <;> cases h) rfl
  | increaseIndent | decreaseIndent | freshRegister | constant length clean
  | modifyExits mem f | exitsOf mem =>
    cases ran
    exact .of_eq rfl rfl
  | label _ ih =>
    obtain ⟨l, s₁, first, rest⟩ := bind_eq_ok ran
    cases first
    refine Onward.trans (.label rfl rfl) (ih _ rest) fun m given => ?_
    rcases List.mem_cons.mp given with rfl | given
    · exact .inr ⟨_, rfl, (Nat.le_refl _), Nat.lt_succ_self _⟩
    · exact .inl given
  | backpatch records given =>
    obtain ⟨patched, eq⟩ := backpatch_eq_ok ran
    exact .backpatch given patched (congrArg (·.names.labels) eq)

end Emission

end Backpatch
