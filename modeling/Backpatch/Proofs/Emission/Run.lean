import Backpatch.Proofs.Core.Code
import Backpatch.Proofs.Text.Clean

/-!
# Runs of emission steps

What each step of the emission does to the names, the buffer and the table of exits. A step that
succeeds is stated as an equation, and `bind_ok` chains the equations of a sequence of steps. The
table is *quiet* when it keeps no list about any node, which is how the emission of each part
starts: whoever has emitted a part has taken its lists before the next part is emitted.
-/

namespace Backpatch

/-! ## The table of exits -/

/-- No list is kept. -/
def Exits.Quiet (e : Exits) : Prop :=
  e.onTrue = [] ∧ e.onFalse = [] ∧ e.next = [] ∧ e.breaks = [] ∧ e.continues = []

def ExitTable.Quiet (t : ExitTable) : Prop := ∀ id, (t.get id).Quiet

theorem ExitTable.quiet_empty : ExitTable.Quiet {} := by
  intro id
  rw [get_empty]
  exact ⟨rfl, rfl, rfl, rfl, rfl⟩

variable {t : ExitTable}

theorem ExitTable.Quiet.set (h : t.Quiet) (id : NodeId) {e : Exits} (he : e.Quiet) :
    (t.set id e).Quiet := by
  intro other
  rw [get_set]
  split
  · exact he
  · exact h other

theorem ExitTable.get_set_self (t : ExitTable) (id : NodeId) (e : Exits) :
    (t.set id e).get id = e := by
  rw [get_set, if_pos rfl]

theorem ExitTable.Quiet.set_set (h : t.Quiet) (id : NodeId) (e : Exits) {e' : Exits}
    (he : e'.Quiet) : ((t.set id e).set id e').Quiet := by
  intro other
  rw [get_set]
  split
  · exact he
  · rename_i ne
    rw [get_set, if_neg ne]
    exact h other

/-! ## Chains of steps -/

namespace Emission

variable {α β : Type}

variable {m : EmitM α} {f : α → EmitM β} {s s' : Emission}

theorem bind_ok {a : α} (h : m s = .ok (a, s')) : (m >>= f) s = f a s' := by
  simp only [bind, StateT.bind, h, Except.bind]

theorem bind_then {a : α} {r : Except Fault (β × Emission)} (h : m s = .ok (a, s'))
    (rest : f a s' = r) : (m >>= f) s = r :=
  (bind_ok h).trans rest

theorem bind_part {γ : Type} {take : EmitM β} {k : β → EmitM γ} {a : β}
    (h : (m >>= fun _ => take) s = .ok (a, s')) : (m >>= fun _ => take >>= k) s = k a s' := by
  rw [← bind_assoc]
  exact bind_ok h

theorem pure_run (a : α) (s : Emission) : (pure a : EmitM α) s = .ok (a, s) := rfl

theorem bind_error {e : Fault} (h : m s = .error e) : (m >>= f) s = .error e := by
  simp only [bind, StateT.bind, h, Except.bind]

theorem bind_eq_ok {b : β} (h : (m >>= f) s = .ok (b, s')) :
    ∃ a t, m s = .ok (a, t) ∧ f a t = .ok (b, s') := by
  simp only [bind, StateT.bind, Except.bind] at h
  split at h
  · cases h
  · rename_i x hx
    exact ⟨x.1, x.2, hx, h⟩

/-! ## Steps that have succeeded -/

section Succeeded

variable {s s' : Emission}

theorem onBuffer_eq_ok {step : CodeBuffer → Except Fault (α × CodeBuffer)} {a : α}
    (h : onBuffer step s = .ok (a, s')) : ∃ b, step s.buffer = .ok (a, b) ∧
      s' = ⟨s.names, b, s.exits⟩ := by
  have unfolded : onBuffer step s = (step s.buffer).bind fun r =>
    .ok (r.1, ⟨s.names, r.2, s.exits⟩) := rfl
  rw [unfolded] at h
  cases done : step s.buffer with
  | error f =>
    rw [done] at h
    cases h
  | ok r =>
    rw [done] at h
    cases h
    exact ⟨r.2, rfl, rfl⟩

theorem write_eq_ok {i : Instr} (h : write i s = .ok ((), s')) :
    s.buffer.emit i = .ok s'.buffer ∧ s' = ⟨s.names, s.buffer.push i, s.exits⟩ := by
  obtain ⟨b, done, rfl⟩ := onBuffer_eq_ok h
  unfold CodeBuffer.emit at done ⊢
  by_cases clean : i.placeholders = 0
  · rw [if_pos clean] at done ⊢
    cases done
    exact ⟨rfl, rfl⟩
  · rw [if_neg clean] at done
    cases done

theorem branch_eq_ok {condition : Register} {records : PatchRecord × PatchRecord}
    (h : branch condition s = .ok (records, s')) :
    records = (⟨s.buffer.lines.size, .first⟩, ⟨s.buffer.lines.size, .second⟩) ∧
      s' = ⟨s.names, s.buffer.push (.branch condition none none), s.exits⟩ := by
  obtain ⟨b, done, rfl⟩ := onBuffer_eq_ok h
  unfold CodeBuffer.branch at done
  by_cases holes : Instr.placeholders (.branch condition none none) = 2
  · simp only [holes, if_true] at done
    cases done
    exact ⟨rfl, rfl⟩
  · simp only [holes, if_false] at done
    cases done

theorem backpatch_eq_ok {records : PatchList} {l : Label}
    (h : backpatch records l s = .ok ((), s')) :
    s.buffer.backpatch records l = .ok s'.buffer ∧ s' = ⟨s.names, s'.buffer, s.exits⟩ := by
  obtain ⟨b, done, rfl⟩ := onBuffer_eq_ok h
  cases patched : s.buffer.backpatch records l with
  | error f =>
    rw [patched] at done
    cases done
  | ok b' =>
    rw [patched] at done
    cases done
    exact ⟨rfl, rfl⟩

end Succeeded

section Steps

variable {names : NameSupply} {b : CodeBuffer} {xs : List Instr} {gs : List Global} {t : ExitTable}

theorem write_run {i : Instr} (h : i.Plain) (hl : i.isLabel = false) :
    write i ⟨names, b.append xs gs, t⟩ = .ok ((), ⟨names, b.append (xs ++ [i]) gs, t⟩) := by
  have emitted : (b.append xs gs).emit i = .ok (b.append (xs ++ [i]) gs) := by
    unfold CodeBuffer.emit
    rw [if_pos h.placeholders_eq_zero, CodeBuffer.push_eq_append _ hl, CodeBuffer.append_append,
      List.append_nil]
  show onBuffer _ _ = _
  unfold onBuffer
  simp only [emitted]
  rfl

theorem jump_run : jump ⟨names, b.append xs gs, t⟩
      = .ok (⟨b.lines.size + xs.length, .first⟩,
        ⟨names, b.append (xs ++ [Instr.jump none]) gs, t⟩) := by
  have pushed : (b.append xs gs).push (.jump none) = b.append (xs ++ [Instr.jump none]) gs := by
    rw [CodeBuffer.push_eq_append _ (i := .jump none) rfl, CodeBuffer.append_append,
      List.append_nil]
  rw [← pushed, ← b.size_append xs gs]
  rfl

theorem branch_run {c : Register} (h : c.Generated) : branch c ⟨names, b.append xs gs, t⟩
      = .ok ((⟨b.lines.size + xs.length, .first⟩, ⟨b.lines.size + xs.length, .second⟩),
          ⟨names, b.append (xs ++ [Instr.branch c none none]) gs, t⟩) := by
  have branched : (b.append xs gs).branch c
      = .ok ((⟨b.lines.size + xs.length, .first⟩, ⟨b.lines.size + xs.length, .second⟩),
          b.append (xs ++ [Instr.branch c none none]) gs) := by
    unfold CodeBuffer.branch
    simp only [placeholders_open_branch h, if_true, CodeBuffer.size_append]
    rw [CodeBuffer.push_eq_append _ (i := .branch c none none) rfl, CodeBuffer.append_append,
      List.append_nil]
  show onBuffer _ _ = _
  unfold onBuffer
  simp only [branched]
  rfl

theorem label_run : label ⟨names, b.append xs gs, t⟩
      = .ok (names.label, ⟨names.nextLabel, b.append (xs ++ [Instr.label names.label]) gs, t⟩) := by
  have emitted : (b.append xs gs).emitLabel names.label
      = b.append (xs ++ [Instr.label names.label]) gs := by
    rw [CodeBuffer.emitLabel_eq_append, CodeBuffer.append_append, List.append_nil]
  rw [← emitted]
  rfl

theorem freshRegister_run :
    freshRegister ⟨names, b, t⟩ = .ok (names.register, ⟨names.nextRegister, b, t⟩) := rfl

theorem constant_run {length : Nat} {body : String} :
    constant length body ⟨names, b.append xs gs, t⟩
      = .ok (names.global,
          ⟨names.nextGlobal, b.append xs (gs ++ [Global.constant names.global length body]),
            t⟩) := by
  have emitted : (b.append xs gs).emitGlobal (.constant names.global length body)
      = b.append xs (gs ++ [Global.constant names.global length body]) := by
    rw [CodeBuffer.emitGlobal_eq_append, CodeBuffer.append_append, List.append_nil]
  rw [← emitted]
  rfl

theorem irType_run {type : Ty} {ir : IrType} (h : type.ir? = some ir) (s : Emission) :
    irType type s = .ok (ir, s) := by
  unfold irType
  rw [h]
  rfl

variable (names b gs t)

/-- Filling the holes of an exit gives the code with that exit known. -/
theorem backpatch_run {W : Type} [DecidableEq W] {records : PatchList} {code : List Instr}
    (before after : List Instr) (steps : List (Step W)) (ρ : W → Target) (w : W) (l : Label)
    (hw : ρ w = none) (hcode : code = before ++ steps.map (Step.instr ρ) ++ after)
    (hrecords : records = Step.records w (b.lines.size + before.length) steps) :
    backpatch records l ⟨names, b.append code gs, t⟩ = .ok ((), ⟨names,
          b.append (before ++ steps.map (Step.instr (fillExit ρ w l)) ++ after) gs, t⟩) := by
  have patched := b.backpatch_records before after steps ρ w l gs hw
  rw [← hcode, ← hrecords] at patched
  show onBuffer _ _ = _
  unfold onBuffer
  simp only [patched]
  rfl

end Steps

section Table

variable (names : NameSupply) (b : CodeBuffer) (t : ExitTable)

theorem exitsOf_run (id : NodeId) (s : Emission) : exitsOf id s = .ok (s.exits.get id, s) := rfl

theorem setPlace_run (id : NodeId) (r : Register) (ht : t.Quiet) :
    ∃ t', t'.Quiet ∧ (t'.get id).place = some r ∧
      setPlace id r ⟨names, b, t⟩ = .ok ((), ⟨names, b, t'⟩) := by
  refine ⟨t.set id { t.get id with place := some r }, ht.set id (ht id), ?_, rfl⟩
  rw [ExitTable.get_set_self]

variable {s s' : Emission} {id : NodeId} {m : EmitM Unit}

/-- Lists that a node gets are the lists that are taken from it. -/
theorem takeBranches_run (onTrue onFalse : PatchList) (ht : t.Quiet)
    (hm : m s = setBranches id onTrue onFalse ⟨names, b, t⟩) :
    ∃ t', t'.Quiet ∧
      (m >>= fun _ => takeBranches id) s = .ok ((onTrue, onFalse), ⟨names, b, t'⟩) := by
  obtain ⟨-, -, hn, hb, hc⟩ := ht id
  let e : Exits := { t.get id with onTrue := onTrue, onFalse := onFalse }
  refine ⟨(t.set id e).set id { e with onTrue := [], onFalse := [] },
    ht.set_set id e ⟨rfl, rfl, hn, hb, hc⟩, ?_⟩
  have done : m s = .ok ((), ⟨names, b, t.set id e⟩) := hm
  rw [bind_ok done]
  unfold takeBranches
  rw [bind_ok (exitsOf_run id _)]
  show Except.ok _ = _
  rw [ExitTable.get_set_self]

theorem takeLeaving_run (l : Leaving) (ht : t.Quiet) (hm : m s = setLeaving id l ⟨names, b, t⟩) :
    ∃ t', t'.Quiet ∧ (m >>= fun _ => takeLeaving id) s = .ok (l, ⟨names, b, t'⟩) := by
  obtain ⟨hT, hF, -, -, -⟩ := ht id
  let e : Exits := { t.get id with next := l.next, breaks := l.breaks, continues := l.continues }
  refine ⟨(t.set id e).set id { e with next := [], breaks := [], continues := [] },
    ht.set_set id e ⟨hT, hF, rfl, rfl, rfl⟩, ?_⟩
  have done : m s = .ok ((), ⟨names, b, t.set id e⟩) := hm
  rw [bind_ok done]
  unfold takeLeaving
  rw [bind_ok (exitsOf_run id _)]
  show Except.ok _ = _
  rw [ExitTable.get_set_self]

theorem takeBranches_eq_ok {lists : PatchList × PatchList}
    (h : takeBranches id s = .ok (lists, s')) :
    lists = ((s.exits.get id).onTrue, (s.exits.get id).onFalse) ∧
      s' = ⟨s.names, s.buffer,
        s.exits.set id { s.exits.get id with onTrue := [], onFalse := [] }⟩ := by
  cases h
  exact ⟨rfl, rfl⟩

theorem takeLeaving_eq_ok {l : Leaving} (h : takeLeaving id s = .ok (l, s')) :
    l = ⟨(s.exits.get id).next, (s.exits.get id).breaks, (s.exits.get id).continues⟩ ∧
      s' = ⟨s.names, s.buffer,
        s.exits.set id { s.exits.get id with next := [], breaks := [], continues := [] }⟩ := by
  cases h
  exact ⟨rfl, rfl⟩

end Table

end Emission

end Backpatch
