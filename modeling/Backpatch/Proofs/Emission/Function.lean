import Backpatch.Code.Function
import Backpatch.Proofs.Emission.Statement

/-!
# The emission of functions

The emission of a function adds its code to the buffer, between the head and the end of the
function. No jump out of a loop is left over behind the body, since each is inside a loop. The
emission of a program adds its functions one after the other.
-/

namespace Backpatch

open Emission Step List

/-! ## No exit leaves a function -/

attribute [local simp] records_append records slots

mutual

/-- An action that no loop is around has no other exit than to what comes after it. -/
theorem Action.records_eq_nil {frame : Frame} {limit : Nat} {Q : Signatures} {w : Leave}
    (hw : w ≠ .next) {live : Live} :
    ∀ {action : Action}, action.Scoped frame limit Q false live → ∀ (s : NameSupply) (start : Nat),
      records w start (action.code frame s).steps = []
  | .declare _ _ none, _, s, start | .block .nil, _, s, start => by
    rw [Action.code]
    simp [fallThrough, hw.symm]
  | .declare _ _ (some _), _, s, start | .assign _ _, _, s, start | .drop _, _, s, start
  | .run _ _, _, s, start => by
    rw [Action.code]
    simp [fallThrough, records_lift, hw.symm]
  | .check _, _, s, start => by
    rw [Action.code]
    simp [fallThrough, records_bind_eq_nil, hw.symm]
  | .when _ _, h, s, start => by
    rw [Action.code]
    simp [records_orNext_of_ne _ _ _ hw, Action.records_eq_nil hw h.2]
  | .either _ _ _, h, s, start => by
    rw [Action.code]
    simp [records_toLabels, Action.records_eq_nil hw h.2.1, Action.records_eq_nil hw h.2.2]
  | .loop _ _, _, s, start => by
    rw [Action.code]
    simp [records_orNext_of_ne _ _ _ hw, records_backTo_of_ne _ _ _ hw]
  | .break, h, _, _ | .continue, h, _, _ => absurd h nofun
  | .return none, _, s, start => by
    rw [Action.code]
    rfl
  | .return (some _), _, s, start => by
    rw [Action.code]
    simp [records_lift]
  | .block (.cons first rest), h, s, start => by
    rw [Action.code]
    exact Actions.records_eq_nil hw (a := .cons first rest) h s start

theorem Actions.records_eq_nil {frame : Frame} {limit : Nat} {Q : Signatures} {w : Leave}
    (hw : w ≠ .next) {live : Live} :
    ∀ {a : Actions}, a.Scoped frame limit Q false live → ∀ (s : NameSupply) (start : Nat),
      records w start (a.code frame s).steps = []
  | .nil, _, s, start => by
    rw [Actions.code]
    rfl
  | .cons _ .nil, h, s, start => by
    rw [Actions.code]
    exact Action.records_eq_nil hw h.1 s start
  | .cons _ (.cons second rest), h, s, start => by
    rw [Actions.code]
    simp [records_connect_of_ne hw, Action.records_eq_nil hw h.1,
      Actions.records_eq_nil hw (a := .cons second rest) h.2]

end

/-! ## Functions -/

/-- The buffer with one more function: its head, its lines one level deeper, and its end. -/
def CodeBuffer.addFunction (b : CodeBuffer) (head : Instr) (body : List Instr)
    (globals : List Global) : CodeBuffer :=
  ((b.append [head] []).increaseIndent.append body globals).decreaseIndent.append
    [.close, .blank] []

namespace Routine

/-- The code of a function in the buffer. -/
def add (f : Routine) (s : NameSupply) (b : CodeBuffer) : CodeBuffer :=
  b.addFunction f.head ((f.code s).steps.map (instr noExits)) (f.code s).globals

/-- The code of functions in the buffer, one after the other. -/
def addAll : List Routine → NameSupply → CodeBuffer → NameSupply × CodeBuffer
  | [], s, b => (s, b)
  | f :: fs, s, b => addAll fs (f.code s).names (f.add s b)

theorem frame_generated (f : Routine) : f.frame.Generated := by
  intro index slot found
  obtain ⟨n, rfl, -⟩ := exists_slot found
  exact trivial

theorem irTypes_run {types : List Ty} (h : ∀ type ∈ types, type.ir? ≠ none) (e : Emission) :
    irTypes types e = .ok (types.map Ty.ir, e) := by
  induction types with
  | nil => rfl
  | cons type types ih =>
    obtain ⟨ir, hir⟩ := Option.ne_none_iff_exists'.mp (h type mem_cons_self)
    refine bind_then (irType_run hir e) ?_
    refine bind_then (ih fun type mem => h type (mem_cons_of_mem _ mem)) ?_
    simp only [map_cons, Ty.ir, hir, Option.getD_some]
    rfl

theorem spillParameters_run (slots : List (Option Nat)) (index : Nat) (s : NameSupply)
    (b : CodeBuffer) (xs : List Instr) (gs : List Global) (t : ExitTable) :
    spillParameters index (slots.map (Option.map .temp)) ⟨s, b.append xs gs, t⟩
      = .ok ((), ⟨s, b.append (xs ++ spillLines index slots) gs, t⟩) := by
  induction slots generalizing index xs with
  | nil =>
    rw [spillLines, List.append_nil]
    rfl
  | cons slot slots ih =>
    cases slot with
    | none => exact ih (index + 1) xs
    | some slot =>
      refine bind_then (write_run (by exact trivial) (by rfl)) ?_
      refine bind_then (write_run (by exact ⟨trivial, trivial⟩) (by rfl)) ?_
      refine (ih (index + 1) _).trans ?_
      rw [spillLines, append_assoc, append_assoc]
      rfl

variable {f : Routine} {limit : Nat} {k : EmitM Unit} {n : Node} {nodes : List Node} {t : ExitTable}

/-- What is written behind the body. -/
theorem end_run {ir : IrType} (hir : f.returnType.ir? = some ir) (s : NameSupply) (b : CodeBuffer)
    (xs : List Instr) (gs : List Global) (t : ExitTable) :
    (do
      if f.name = "main" then write (.call none "exit" [(.i32, .number 0)])
      write (.ret (defaultResult f.returnType ir))
      k : EmitM Unit) ⟨s, b.append xs gs, t⟩ = k ⟨s, b.append (xs ++ f.endLines) gs, t⟩ := by
  have result : (if f.returnType = .void then none else some (f.returnType.ir, .number 0))
      = defaultResult f.returnType ir := by
    unfold defaultResult Ty.ir
    rw [hir]
    rfl
  have plain : (Instr.ret (defaultResult f.returnType ir)).Plain := by
    intro v hv
    unfold defaultResult at hv
    split at hv
    · cases hv
    · obtain rfl := Option.mem_some.mp hv
      exact trivial
  have ret : ∀ xs, (write (.ret (defaultResult f.returnType ir)) >>= fun _ => k)
      ⟨s, b.append xs gs, t⟩
        = k ⟨s, b.append (xs ++ [Instr.ret (defaultResult f.returnType ir)]) gs, t⟩ :=
    fun xs => bind_ok (write_run plain rfl)
  unfold endLines
  rw [result]
  by_cases hm : f.name = "main"
  · simp only [hm, if_true]
    have clean : Clean "exit" := by decide
    have number : ∀ a ∈ [(IrType.i32, Operand.number 0)], a.2.Generated := by
      intro a ha
      obtain rfl := mem_singleton.mp ha
      exact trivial
    refine bind_then (write_run (by exact ⟨fun _ h => (by cases h), clean, number⟩) (by rfl)) ?_
    refine (ret _).trans ?_
    rw [append_assoc]
  · simp only [hm, if_false]
    exact ret xs

/-- What is written before the body. -/
theorem start_run (f : Routine) (s : NameSupply) (b : CodeBuffer) (t : ExitTable) :
    (do
      if 0 < (f.frameSize : Int) then write (.allocaFrame f.frameSize)
      spillParameters 0 (f.slots.map (Option.map .temp))
      k : EmitM Unit) ⟨s, b, t⟩ = k ⟨s, b.append (f.frameLines ++ spillLines 0 f.slots) [], t⟩ := by
  have spill : ∀ xs, (spillParameters 0 (f.slots.map (Option.map .temp)) >>= fun _ => k)
      ⟨s, b.append xs [], t⟩ = k ⟨s, b.append (xs ++ spillLines 0 f.slots) [], t⟩ :=
    fun xs => bind_ok (spillParameters_run f.slots 0 s b xs [] t)
  have start : (⟨s, b, t⟩ : Emission) = ⟨s, b.append [] [], t⟩ := by rw [CodeBuffer.append_nil]
  unfold frameLines
  rw [start]
  by_cases hsize : 0 < f.frameSize
  · simp only [hsize, Int.natCast_pos, if_true]
    refine bind_then (write_run (by exact trivial) (by rfl)) ?_
    exact spill _
  · simp only [hsize, Int.natCast_pos, if_false]
    exact spill []

theorem head_run {ir : IrType} (hir : f.returnType.ir? = some ir) (hc : Clean f.name)
    (s : NameSupply) (b : CodeBuffer) (t : ExitTable) :
    write (.define ir f.name (f.parameters.map Ty.ir)) ⟨s, b, t⟩
      = .ok ((), ⟨s, b.append [f.head] [], t⟩) := by
  have written := @write_run s b [] [] t (.define ir f.name (f.parameters.map Ty.ir)) hc rfl
  rw [CodeBuffer.append_nil] at written
  rw [written]
  unfold Routine.head Ty.ir
  rw [hir]
  rfl

/-- The emission of a function writes its code. -/
theorem emitted (hn : f.Of n) (hs : f.Scoped limit cleanNames) (hc : Clean f.name) (s : NameSupply)
    (b : CodeBuffer) (t : ExitTable) (ht : t.Quiet) : ∃ t', t'.Quiet ∧
      emitFunction n ⟨s, b, t⟩ = .ok ((), ⟨(f.code s).names, f.add s b, t'⟩) := by
  obtain ⟨id, l, id', l', nodes, rfl, hbody⟩ := hn
  obtain ⟨ir, hir⟩ := Option.ne_none_iff_exists'.mp hs.result
  let inner := (b.append [f.head] []).increaseIndent
  let before := f.frameLines ++ spillLines 0 f.slots
  have hscoped : (Action.block f.body).Scoped f.frame limit cleanNames false [] := hs.body
  obtain ⟨t₁, ht₁, run₁⟩ :=
    Action.emitted f.frame_generated hs.result (.block hbody) hscoped s inner before [] t ht
  have escaped : ∀ w : Leave, w ≠ .next → records w (inner.lines.size + before.length)
      (Action.code f.frame (.block f.body) s).steps = [] :=
    fun w hw => Action.records_eq_nil hw hscoped s _
  refine ⟨t₁, ht₁, ?_⟩
  unfold add code
  generalize Action.code f.frame (.block f.body) s = c at run₁ escaped
  have breaks := escaped .break (by decide)
  have continues := escaped .continue (by decide)
  let s' := c.names.nextLabel
  have patched := backpatch_run s' inner c.globals t₁ before [.label c.names.label]
    c.steps (fun _ => none) .next c.names.label rfl rfl rfl
  refine bind_then (irTypes_run hs.parameters _) ?_
  refine bind_then (irType_run hir _) ?_
  refine bind_then (head_run hir hc s b t) ?_
  have deeper : increaseIndent ⟨s, b.append [f.head] [], t⟩ = .ok ((), ⟨s, inner, t⟩) := rfl
  refine bind_then deeper ?_
  refine (start_run f s inner t).trans ?_
  refine (bind_part run₁).trans ?_
  simp only [leavingOf, breaks, continues, ne_eq, not_true, or_self, if_false]
  refine bind_then label_run ?_
  refine bind_then patched ?_
  refine (end_run hir _ inner _ _ t₁).trans ?_
  have back : ∀ c : CodeBuffer, decreaseIndent ⟨s', c, t₁⟩ = .ok ((), ⟨s', c.decreaseIndent, t₁⟩) :=
    fun _ => rfl
  refine bind_then (back _) ?_
  generalize body : before ++ c.steps.map (instr
    (fillExit (fun _ => none) .next c.names.label))
    ++ [Instr.label c.names.label] ++ f.endLines = code
  have close :=
    @write_run s' (inner.append code c.globals).decreaseIndent [] [] t₁ .close trivial rfl
  rw [CodeBuffer.append_nil] at close
  refine bind_then close ?_
  refine (write_run (by exact trivial) (by rfl)).trans ?_
  have lines : ((f.frameLines ++ spillLines 0 f.slots).map Step.line ++
      c.steps.map (Step.bind fun _ => Exit.goto c.names.label) ++
      (Instr.label c.names.label :: f.endLines).map Step.line).map (instr noExits)
        = code := by
    -- No loop is around the body, so it leaves by its end only.
    have exits : c.steps.map (instr (fillExit (fun _ => none) .next c.names.label))
        = c.steps.map (instr fun _ => some c.names.label) :=
      map_instr_congr fun w => by
        by_cases hw : w = .next
        · exact .inl (by simp [fillExit, hw])
        · exact .inr (escaped w hw)
    have written : ∀ is : List Instr, (is.map Step.line).map (instr noExits) = is := by
      intro is
      rw [map_map]
      exact map_id is
    rw [← body, exits, map_append, map_append, written, written, map_instr_bind]
    simp only [before, append_assoc, cons_append, nil_append]
    rfl
  simp only [lines]
  rfl

/-- A function whose name holds the placeholder is refused at its head. -/
theorem refused (hn : f.Of n) (hresult : f.returnType.ir? ≠ none)
    (hparameters : ∀ type ∈ f.parameters, type.ir? ≠ none) (hc : ¬Clean f.name) (s : Emission) :
    emitFunction n s = .error (.strayPlaceholder f.head.text) := by
  obtain ⟨id, l, id', l', nodes, rfl, -⟩ := hn
  obtain ⟨ir, hir⟩ := Option.ne_none_iff_exists'.mp hresult
  have head : f.head = .define ir f.name (f.parameters.map Ty.ir) := by
    unfold Routine.head Ty.ir
    rw [hir]
    rfl
  have stray : f.head.placeholders ≠ 0 := by
    intro none
    have clean : Clean f.head.text := count_eq_zero.mp none
    rw [head] at clean
    have opened := (clean_append.mp (clean_append.mp (clean_append.mp clean).1).1).1
    exact hc (clean_append.mp opened).2
  refine bind_then (irTypes_run hparameters _) ?_
  refine bind_then (irType_run hir _) ?_
  apply bind_error
  rw [← head]
  unfold write onBuffer CodeBuffer.emit
  simp only [stray, if_false]
  rfl

/-- The emission of functions writes their code, one after the other. -/
theorem emitted_all {fs : List Routine} (hs : ∀ f ∈ fs, f.Scoped limit cleanNames)
    (hc : ∀ f ∈ fs, Clean f.name)
    (hn : OfAll fs nodes) (s : NameSupply) (b : CodeBuffer) (ht : t.Quiet) : ∃ t', t'.Quiet ∧
      emitFunctions nodes ⟨s, b, t⟩ = .ok ((), ⟨(addAll fs s b).1, (addAll fs s b).2, t'⟩) := by
  induction fs generalizing nodes s b t with
  | nil =>
    obtain rfl : nodes = [] := hn
    exact ⟨t, ht, rfl⟩
  | cons f fs ih =>
    obtain ⟨n, ns, rfl, hf, hfs⟩ := hn
    obtain ⟨t₁, ht₁, run₁⟩ := emitted hf (hs f mem_cons_self) (hc f mem_cons_self) s b t ht
    obtain ⟨t₂, ht₂, run₂⟩ := ih (fun g mem => hs g (mem_cons_of_mem _ mem))
      (fun g mem => hc g (mem_cons_of_mem _ mem)) hfs (f.code s).names (f.add s b) ht₁
    exact ⟨t₂, ht₂, (bind_ok run₁).trans run₂⟩

/-- The emission stops at the first function whose name holds the placeholder. -/
theorem refused_at {before : List Routine} {after : List Routine}
    (hs : ∀ g ∈ before, g.Scoped limit cleanNames)
    (hc : ∀ g ∈ before, Clean g.name) (hresult : f.returnType.ir? ≠ none)
    (hparameters : ∀ type ∈ f.parameters, type.ir? ≠ none) (hf : ¬Clean f.name)
    (hn : OfAll (before ++ f :: after) nodes) (s : NameSupply) (b : CodeBuffer) (ht : t.Quiet) :
    emitFunctions nodes ⟨s, b, t⟩ = .error (.strayPlaceholder f.head.text) := by
  induction before generalizing nodes s b t with
  | nil =>
    obtain ⟨n, ns, rfl, hn, -⟩ := hn
    exact bind_error (refused hn hresult hparameters hf _)
  | cons g before ih =>
    obtain ⟨n, ns, rfl, hg, hrest⟩ := hn
    obtain ⟨t₁, ht₁, run₁⟩ := emitted hg (hs g mem_cons_self) (hc g mem_cons_self) s b t ht
    refine bind_then run₁ ?_
    exact ih (fun g mem => hs g (mem_cons_of_mem _ mem))
      (fun g mem => hc g (mem_cons_of_mem _ mem)) hrest _ _ ht₁

end Routine

end Backpatch
