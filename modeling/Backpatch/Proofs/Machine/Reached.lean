import Backpatch.Proofs.Machine.Routines
import Backpatch.Proofs.Output.Regions

/-!
# States that the emission reaches

Whatever has been emitted before, the names in the buffer are in order (`Emission.Tidy`): every
label is written once and has been given out, and so has every constant. The emission of a program
begins in such a state, and every step of the emission keeps to it (`Confined.tidy`). The states in
which the emission comes to a node are all reached from there (`Generates.reaches`).
-/

namespace Backpatch

open Emission List

/-! ## Lines that are filled -/

theorem CodeBuffer.getElem?_instrs (b : CodeBuffer) (i : Nat) :
    b.instrs[i]? = (b.lines[i]?).map (·.instr) := by
  unfold instrs
  rw [getElem?_map, Array.getElem?_toList]

/-- Filling holes changes no label. -/
theorem CodeBuffer.labelsOf_backpatch {b b' : CodeBuffer} {records : PatchList} {l : Label}
    (h : b.backpatch records l = .ok b') : labelsOf b'.instrs = labelsOf b.instrs := by
  have lines : b'.instrs.map Instr.label? = b.instrs.map Instr.label? := by
    refine ext_getElem? fun i => ?_
    have size : b'.lines.size = b.lines.size := size_backpatch h
    have same := label?_backpatch h i
    unfold label? at same
    rw [getElem?_map, getElem?_map, getElem?_instrs, getElem?_instrs]
    by_cases inside : i < b.lines.size
    · rw [Array.getElem?_eq_getElem inside, Array.getElem?_eq_getElem (size ▸ inside)] at same ⊢
      exact congrArg some same
    · rw [Array.getElem?_eq_none (Nat.le_of_not_lt inside),
        Array.getElem?_eq_none (size ▸ Nat.le_of_not_lt inside)]
  have pick : ∀ lines : List Instr, labelsOf lines = (lines.map Instr.label?).filterMap id := by
    intro lines
    rw [filterMap_map]
    rfl
  rw [pick, pick, lines]

namespace Emission

/-! ## Names in order -/

/-- The names in the buffer have been given out, and each is there once. Registers are new from the
number on. -/
structure Tidy (registers : Nat) (s : Emission) : Prop where
  registers : registers ≤ s.names.registers
  labels : (labelsOf s.buffer.instrs).Nodup
  numbered : ∀ l ∈ labelsOf s.buffer.instrs, l.Within 0 s.names.labels
  constants : (s.buffer.globals.toList.filterMap Global.constant?).Nodup
  named : ∀ k, .string k ∈ s.buffer.globals.toList.filterMap Global.constant? → k < s.names.globals

section Tidy

variable {registers : Nat} {s s' : Emission}

theorem Tidy.push (h : s.Tidy registers) {i : Instr} (unlabelled : i.label? = none) :
    Tidy registers ⟨s.names, s.buffer.push i, s.exits⟩ := by
  have lines : labelsOf (s.buffer.push i).instrs = labelsOf s.buffer.instrs := by
    unfold CodeBuffer.push CodeBuffer.instrs
    rw [Array.toList_push, map_append, labelsOf_append]
    simp [labelsOf, unlabelled]
  exact ⟨h.registers, lines ▸ h.labels, lines ▸ h.numbered, h.constants, h.named⟩

theorem Tidy.label (h : s.Tidy registers) :
    Tidy registers ⟨s.names.nextLabel, s.buffer.emitLabel s.names.label, s.exits⟩ := by
  have lines : labelsOf (s.buffer.emitLabel s.names.label).instrs
      = labelsOf s.buffer.instrs ++ [s.names.label] := by
    unfold CodeBuffer.emitLabel CodeBuffer.instrs
    rw [Array.toList_push, map_append, labelsOf_append]
    rfl
  refine ⟨h.registers, ?_, ?_, h.constants, h.named⟩
  · show (labelsOf (s.buffer.emitLabel s.names.label).instrs).Nodup
    rw [lines]
    refine nodup_append.mpr ⟨h.labels, nodup_singleton _, ?_⟩
    rintro l mem _ new rfl
    obtain ⟨k, eq, -, below⟩ := h.numbered l mem
    rw [mem_singleton.mp new] at eq
    exact absurd below (Nat.not_lt.mpr (Nat.le_of_eq (Label.numbered.inj eq)))
  · intro l mem
    rw [lines] at mem
    rcases mem_append.mp mem with old | new
    · exact (h.numbered l old).mono (Nat.le_refl 0) (Nat.le_succ _)
    · exact ⟨s.names.labels, mem_singleton.mp new, Nat.zero_le _, Nat.lt_succ_self _⟩

theorem Tidy.constant (h : s.Tidy registers) (length : Nat) (body : String) :
    Tidy registers ⟨s.names.nextGlobal, s.buffer.emitGlobal (.constant s.names.global length body),
      s.exits⟩ := by
  have names : (s.buffer.emitGlobal (.constant s.names.global length body)).globals.toList.filterMap
      Global.constant?
      = s.buffer.globals.toList.filterMap Global.constant? ++ [s.names.global] := by
    unfold CodeBuffer.emitGlobal
    rw [Array.toList_push, filterMap_append]
    rfl
  refine ⟨h.registers, h.labels, h.numbered, ?_, ?_⟩
  · show (filterMap _ (s.buffer.emitGlobal _).globals.toList).Nodup
    rw [names]
    refine nodup_append.mpr ⟨h.constants, nodup_singleton _, ?_⟩
    rintro name mem _ new rfl
    rw [mem_singleton.mp new] at mem
    exact Nat.lt_irrefl _ (h.named s.names.globals mem)
  · intro k mem
    rw [names] at mem
    rcases mem_append.mp mem with old | new
    · exact Nat.lt_succ_of_lt (h.named k old)
    · obtain rfl := GlobalName.string.inj (mem_singleton.mp new)
      exact Nat.lt_succ_self _

/-- Every step of the emission keeps the names in order. -/
theorem Confined.tidy {nodes : NodeId → Prop} {known : List Label} {α : Type} {step : EmitM α}
    (confined : Confined nodes known step) {a : α} (ran : step s = .ok (a, s'))
    (h : s.Tidy registers) :
    s'.Tidy registers := by
  induction confined generalizing s s' with
  | pure a | exitsOf mem =>
    cases ran
    exact h
  | fault f => cases ran
  | bind _ _ ihFirst ihRest =>
    obtain ⟨b, s₁, first, rest⟩ := bind_eq_ok ran
    exact ihRest b rest (ihFirst first h)
  | write i ordinary =>
    obtain ⟨-, rfl⟩ := write_eq_ok ran
    exact h.push (Instr.label?_of_isOrdinary ordinary)
  | jump =>
    cases ran
    exact h.push rfl
  | branch condition =>
    obtain ⟨-, rfl⟩ := branch_eq_ok ran
    exact h.push rfl
  | increaseIndent | decreaseIndent | modifyExits mem f =>
    cases ran
    exact ⟨h.registers, h.labels, h.numbered, h.constants, h.named⟩
  | freshRegister =>
    cases ran
    exact ⟨Nat.le_succ_of_le h.registers, h.labels, h.numbered, h.constants, h.named⟩
  | constant length clean =>
    cases ran
    exact h.constant length _
  | label _ ih =>
    obtain ⟨l, s₁, first, rest⟩ := bind_eq_ok ran
    cases first
    exact ih _ rest h.label
  | backpatch records given =>
    obtain ⟨patched, same⟩ := backpatch_eq_ok ran
    have names : s'.names = s.names := by rw [same]
    have globals : s'.buffer.globals = s.buffer.globals := CodeBuffer.globals_backpatch patched
    have labels := CodeBuffer.labelsOf_backpatch patched
    exact ⟨names ▸ h.registers, labels ▸ h.labels, names ▸ labels ▸ h.numbered,
      globals ▸ h.constants, names ▸ globals ▸ h.named⟩

theorem tidy_of_ran {α : Type} {step : EmitM α}
    [confined : Confined (fun _ => True) [] step] {a : α}
    (ran : step s = .ok (a, s')) (h : s.Tidy registers) : s'.Tidy registers :=
  confined.tidy ran h

theorem Tidy.holds (h : s.Tidy registers) : s.buffer.image.Holds s.buffer.globals.toList := by
  refine CodeBuffer.holds_image ?_
  rw [map_fst_contents]
  exact h.constants

end Tidy

/-! ## Reached states -/

/-- Steps of the emission that keep to other nodes than those below `n` lead from the first state to
the second. -/
def Reaches (n : Node) (s s' : Emission) : Prop :=
  ∃ (α : Type) (step : EmitM α) (a : α), Confined (· ∉ n.ids) [] step ∧ step s = .ok (a, s')

theorem Reaches.refl (n : Node) (s : Emission) : Reaches n s s := ⟨Unit, pure (), (), .pure (), rfl⟩

variable {n : Node} {s s' : Emission}

theorem Reaches.tidy {registers : Nat} (reaches : Reaches n s s') (h : s.Tidy registers) :
    s'.Tidy registers := by
  obtain ⟨α, step, a, confined, ran⟩ := reaches
  exact confined.tidy ran h

theorem Reaches.quiet (reaches : Reaches n s s') (h : s.exits.Quiet) :
    ∀ id ∈ n.ids, (s'.exits.get id).Quiet := by
  obtain ⟨α, step, a, confined, ran⟩ := reaches
  intro id mem
  rw [confined.kept ran (not_not.mpr mem)]
  exact h id

/-- The states in which the emission of a program comes to a node are reached. -/
theorem Generates.reaches {functions : List Node} {final : Emission}
    (h : Generates functions s final)
    {frame : Frame} {u : Emission} (visit : Visited functions s frame n u) : Reaches n s u := by
  induction visit with
  | @body before after f body info s₁ u split kind children earlier lead =>
    have numbered := h.numbered
    rw [split, Node.idsAll_append, Node.idsAll_cons] at numbered
    have apart := (nodup_append.mp numbered).2.2
    have inside : body.ids ⊆ f.ids := Node.ids_subset_of_mem_children (by simp [children])
    have others : HoldsAll (· ∉ body.ids) before :=
      holdsAll_of_ids before fun id mem own => apart id mem id (mem_append_left _ (inside own)) rfl
    exact ⟨Unit, emitFunctions before >>= fun _ => aheadBody info, (), inferInstance,
      (bind_ok earlier).trans lead⟩
  | @child frame m n i u u₁ visit child lead ih =>
    obtain ⟨v, stage⟩ := h.stage visit
    obtain ⟨α, step, a, confined, ran⟩ := ih
    have mem : n ∈ m.children := mem_of_getElem? child
    have apart : ∀ id ∈ n.ids, id ∉ Node.idsAll (m.children.take i) :=
      Node.ids_disjoint_take stage.numbered child
    have earlier : Confined (· ∈ Node.idsAll (m.children.take i)) [] (ahead (some frame) m i) :=
      confined_ahead stage.shape child (holdsAll_of_ids _ fun _ mem => mem)
    refine ⟨Unit, step >>= fun _ => ahead (some frame) m i, (),
        .bind (confined.mono ?_ (List.Subset.refl _)) fun _ =>
      earlier.mono ?_ (List.Subset.refl _), (bind_ok ran).trans lead⟩
    · exact fun id out below => out (Node.ids_subset_of_mem_children mem below)
    · exact fun id early below => apart id below early

end Emission

/-- The emission of a program begins with names in order. -/
theorem Program.Checked.tidy {options : Options} {tree : SyntaxTree} {c : Context}
    {fs : List Routine} {registers : Nat} (checked : Checked options tree c (fs, registers)) :
    (c.emission options.emitRuntime).Tidy registers := by
  have buffer : (c.emission options.emitRuntime).buffer = options.prelude := checked.prelude
  have names : (c.emission options.emitRuntime).names = { registers := registers } := checked.names
  have labels : labelsOf options.prelude.instrs = [] := by
    refine filterMap_eq_nil_iff.mpr fun i mem => ?_
    obtain ⟨index, found⟩ := mem_iff_getElem?.mp mem
    rw [CodeBuffer.getElem?_instrs] at found
    obtain ⟨line, there, rfl⟩ := Option.map_eq_some_iff.mp found
    have bare := options.prelude_bare.1 index
    unfold CodeBuffer.label? at bare
    rw [there] at bare
    exact bare
  have constants :
    ∀ emitRuntime, ((preludeGlobals emitRuntime).filterMap Global.constant?).Nodup := by decide
  have named : ∀ emitRuntime k, GlobalName.string k ∉ (preludeGlobals emitRuntime).filterMap
      Global.constant? := by
    intro emitRuntime k
    cases emitRuntime <;> simp [preludeGlobals, Prelude.runtimeGlobals, Prelude.declarations,
      Prelude.exitDeclaration, Global.constant?]
  refine ⟨names ▸ Nat.le_refl _, ?_, ?_, ?_, ?_⟩ <;> rw [buffer]
  · rw [labels]
    exact nodup_nil
  · rw [labels]
    exact forall_mem_nil _
  · rw [options.globals_prelude]
    exact constants _
  · rw [options.globals_prelude]
    exact fun k mem => absurd mem (named _ k)

end Backpatch
