import Backpatch.Proofs.Emission.Visits
import Backpatch.Proofs.Ledger
import Backpatch.Proofs.Output.Functions

/-!
# Regions of the finished code

The lines that the emission of a node has appended are its region. In the finished code no branch
from elsewhere goes to a label of the region, and the branches that leave it are the holes that were
in the lists of the node when its emission was finished. The right operand of an `and` is reached by
the true exits of the left one only, and that of an `or` by the false exits
(`Program.compile_closes_regions`).
-/

namespace Backpatch

open Emission List

/-! ## Visits -/

namespace Emission

/-- What the emission of a function does before its body. -/
def aheadBody (info : FunctionInfo) : EmitM Unit := do
  let parameters ← irTypes info.parameters
  let result ← irType info.returnType
  write (.define result info.name parameters)
  increaseIndent
  if 0 < info.frameSize then write (.allocaFrame info.frameSize)
  spillParameters 0 info.slots

/-- What the emission of a function does after its body. -/
def closeBody (info : FunctionInfo) (result : IrType) (body : Node) : EmitM Unit := do
  let leaving ← takeLeaving body.id
  if leaving.breaks ≠ [] ∨ leaving.continues ≠ [] then fault (.escapedExits info.name)
  let done ← label
  backpatch leaving.next done
  if info.name = "main" then write (.call none "exit" [(.i32, .number 0)])
  write (.ret (defaultResult info.returnType result))
  decreaseIndent
  write .close
  write .blank

/-- The emission of the functions from `s` on comes to the emission of the node in this state,
inside the frame of the function that the node belongs to. -/
inductive Visited (functions : List Node) (s : Emission) : Frame → Node → Emission → Prop
  | body {before after : List Node} {f body : Node} {info : FunctionInfo} {s₁ u : Emission}
      (split : functions = before ++ f :: after) (kind : f.kind = .function info)
      (children : f.children = [body])
      (earlier : emitFunctions before s = .ok ((), s₁)) (lead : aheadBody info s₁ = .ok ((), u)) :
      Visited functions s info.frame body u
  | child {frame : Frame} {m n : Node} {i : Nat} {u u₁ : Emission}
      (visit : Visited functions s frame m u)
      (child : m.children[i]? = some n) (lead : ahead (some frame) m i u = .ok ((), u₁)) :
      Visited functions s frame n u₁

variable {s s' : Emission} {known : List Label}

theorem ran_unique {step : EmitM Unit} {t t' : Emission} (h : step s = .ok ((), t))
    (h' : step s = .ok ((), t')) : t = t' :=
  congrArg Prod.snd (Except.ok.inj (h.symm.trans h'))

theorem emitFunctions_append {before after : List Node}
    (ran : emitFunctions (before ++ after) s = .ok ((), s')) :
    ∃ s₁, emitFunctions before s = .ok ((), s₁) ∧ emitFunctions after s₁ = .ok ((), s') := by
  induction before generalizing s with
  | nil => exact ⟨s, rfl, ran⟩
  | cons f before ih =>
    obtain ⟨⟨⟩, s₁, first, ran⟩ := bind_eq_ok ran
    obtain ⟨s₂, earlier, later⟩ := ih ran
    exact ⟨s₂, (bind_ok first).trans earlier, later⟩

/-- A step that is made only where it is needed has been made or not. -/
theorem optional_eq_ok {α : Type} {c : Prop} [Decidable c] {step : EmitM Unit}
    {next : Unit → EmitM α} {a : α} (ran : (if c then step >>= next else next ()) s = .ok (a, s')) :
    ∃ s₁, next () s₁ = .ok (a, s') ∧
      ∀ {β : Type} (other : Unit → EmitM β), (if c then step >>= other else other ()) s
        = other () s₁ := by
  by_cases h : c
  · rw [if_pos h] at ran
    obtain ⟨⟨⟩, s₁, first, ran⟩ := bind_eq_ok ran
    refine ⟨s₁, ran, fun other => ?_⟩
    rw [if_pos h]
    exact bind_ok first
  · rw [if_neg h] at ran
    refine ⟨s, ran, fun other => ?_⟩
    rw [if_neg h]

/-- The emission of a function is that of its body, with what comes before and after it. -/
theorem emitFunction_eq_ok {f body : Node} {info : FunctionInfo} (kind : f.kind = .function info)
    (children : f.children = [body]) (statement : body.IsStatement)
    (ran : emitFunction f s = .ok ((), s')) :
    ∃ result u u', aheadBody info s = .ok ((), u) ∧
      emitNode (some info.frame) body u = .ok ((), u') ∧
      closeBody info result body u' = .ok ((), s') := by
  obtain ⟨id, l, _, _⟩ := f
  cases kind
  cases children
  obtain ⟨parameters, s₁, types, ran⟩ := bind_eq_ok ran
  obtain ⟨result, s₂, type, ran⟩ := bind_eq_ok ran
  obtain ⟨⟨⟩, s₃, head, ran⟩ := bind_eq_ok ran
  obtain ⟨⟨⟩, s₄, indented, ran⟩ := bind_eq_ok ran
  obtain ⟨s₅, ran, reserved⟩ := optional_eq_ok ran
  obtain ⟨⟨⟩, u, spilled, ran⟩ := bind_eq_ok ran
  obtain ⟨⟨⟩, u', emitted, ran⟩ := bind_eq_ok ran
  refine ⟨result, u, u', ?_, emitNode_statement statement ▸ emitted, ran⟩
  exact (bind_ok types).trans ((bind_ok type).trans ((bind_ok head).trans ((bind_ok indented).trans
    ((reserved _).trans spilled))))

set_option synthInstance.maxSize 20000 in
instance {info : FunctionInfo} {result : IrType} {body : Node} :
    Confined (fun _ => True) known (closeBody info result body) := by
  unfold closeBody
  infer_instance

set_option synthInstance.maxSize 20000 in
instance {nodes : NodeId → Prop} {info : FunctionInfo} : Confined nodes known (aheadBody info) := by
  unfold aheadBody
  infer_instance

/-- The functions of a tree are emitted from `s` to `final`. -/
structure Generates (functions : List Node) (s final : Emission) : Prop where
  bodies : ∀ f ∈ functions, ∃ info body, f.Function info body
  numbered : (Node.idsAll functions).Nodup
  quiet : s.exits.Quiet
  unlabelled : ∀ i, s.buffer.label? i = none
  untargeted : ∀ r, s.buffer.target? r = none
  ran : emitFunctions functions s = .ok ((), final)
  closed : final.buffer.openRecords = []

/-- The emission of the node from `u` to `u'` is a part of the emission from `s` to `final`. -/
structure Stage (s final : Emission) (frame : Frame) (n : Node) (u u' : Emission) : Prop where
  generated : frame.Generated
  returns : frame.returnType.ir? ≠ none
  part : ∃ limit, frame.Part limit cleanNames n
  numbered : n.ids.Nodup
  quiet : ∀ id ∈ n.ids, (u.exits.get id).Quiet
  ran : emitNode (some frame) n u = .ok ((), u')
  before : Onward (fun _ => False) s u
  /-- What is emitted later does not know the labels of the node. -/
  after : Onward (fun l => ¬l.Within u.names.labels u'.names.labels) u' final

theorem Stage.shape {final u u' : Emission} {frame : Frame} {n : Node}
    (h : Stage s final frame n u u') : n.Shape := by
  obtain ⟨limit, part⟩ := h.part
  exact part.shape

section Stages

variable {functions : List Node} {s final : Emission} {frame : Frame}

variable {f n : Node} {u : Emission}

/-- The emission of a function comes to its body. -/
theorem Generates.body (h : Generates functions s final) {before after : List Node}
    (split : functions = before ++ f :: after) {info : FunctionInfo} {body : Node}
    (function : f.Function info body) :
    ∃ s₁ u u', emitFunctions before s = .ok ((), s₁) ∧ aheadBody info s₁ = .ok ((), u) ∧
      Stage s final info.frame body u u' := by
  have ran := h.ran
  rw [split] at ran
  obtain ⟨s₁, earlier, ran⟩ := emitFunctions_append ran
  obtain ⟨⟨⟩, s₂, here, later⟩ := bind_eq_ok ran
  obtain ⟨limit, part⟩ := function.part
  obtain ⟨result, u, u', lead, emitted, closed⟩ :=
    emitFunction_eq_ok function.kind function.children function.statement here
  have numbered := h.numbered
  rw [split, Node.idsAll_append, Node.idsAll_cons] at numbered
  obtain ⟨-, numbered, apart⟩ := nodup_append.mp numbered
  have child : body ∈ f.children := by simp [function.children]
  have inside : body.ids ⊆ f.ids := Node.ids_subset_of_mem_children child
  have lead' : Confined (fun _ => False) [] (aheadBody info) := inferInstance
  have others : HoldsAll (· ∈ Node.idsAll before) before := holdsAll_of_ids before fun _ mem => mem
  have earlier' : Confined (· ∈ Node.idsAll before) [] (emitFunctions before) := inferInstance
  refine ⟨s₁, u, u', earlier, lead, function.generated, function.returns, ⟨limit, part⟩, ?_, ?_,
    emitted, ?_, ?_⟩
  · exact (nodup_append.mp numbered).1.sublist (Node.ids_sublist_of_mem_children child)
  · intro id mem
    have out : id ∉ Node.idsAll before :=
      fun early => apart id early id (mem_append_left _ (inside mem)) rfl
    rw [lead'.kept lead not_false, earlier'.kept earlier out]
    exact h.quiet id
  · exact ((earlier'.onward earlier).mono (by simp)).then ((lead'.onward lead).mono (by simp))
  · exact (onward_closed closed).then (onward_closed later)

/-- The emission of a node comes to each of its children. -/
theorem Stage.child {m : Node} {i : Nat} {v : Emission} (h : Stage s final frame m u v)
    (child : m.children[i]? = some n) :
    ∃ u₁ u₂, ahead (some frame) m i u = .ok ((), u₁) ∧ Stage s final frame n u₁ u₂ ∧
      Onward (Label.Within 0 u₁.names.labels) u₂ v := by
  obtain ⟨u₁, u₂, lead, emitted, onward⟩ := resumed_of_shape h.shape child h.ran
  obtain ⟨limit, part⟩ := h.part
  have mem : n ∈ m.children := mem_of_getElem? child
  -- The numbers of the children before this one are different from those below it.
  have apart : ∀ id ∈ n.ids, id ∉ Node.idsAll (m.children.take i) :=
    Node.ids_disjoint_take h.numbered child
  have lead' : Confined (· ∈ Node.idsAll (m.children.take i)) [] (ahead (some frame) m i) :=
    confined_ahead h.shape child (holdsAll_of_ids _ fun _ mem => mem)
  have grown : Onward (fun _ => False) u u₁ := (lead'.onward lead).mono (by simp)
  refine ⟨u₁, u₂, lead, ⟨h.generated, h.returns, ⟨limit, part.child n mem⟩, ?_, ?_,
    emitted, ?_, ?_⟩, onward⟩
  · exact h.numbered.sublist (Node.ids_sublist_of_mem_children mem)
  · intro id below
    rw [lead'.kept lead (apart id below)]
    exact h.quiet id (Node.ids_subset_of_mem_children mem below)
  · exact h.before.then grown
  · have old : Onward (fun l => ¬l.Within u₁.names.labels u₂.names.labels) u₂ v := by
      refine onward.mono fun l known new => ?_
      exact absurd (known.disjoint new) (Nat.lt_irrefl _)
    refine old.trans h.after fun l known => .inl fun within => known ?_
    exact within.mono grown.labels onward.labels

/-- Every visit is a stage of the emission. -/
theorem Generates.stage (h : Generates functions s final) (visit : Visited functions s frame n u) :
    ∃ u', Stage s final frame n u u' := by
  induction visit with
  | @body before after f body info s₁ u split kind children earlier lead =>
    have mem : f ∈ functions := split ▸ mem_append_right _ mem_cons_self
    obtain ⟨info', body', function⟩ := h.bodies f mem
    obtain rfl : info = info' := NodeKind.function.inj (kind.symm.trans function.kind)
    obtain rfl : body = body' := singleton_inj.mp (children.symm.trans function.children)
    obtain ⟨t₁, t, u', earlier', lead', stage⟩ := h.body split function
    obtain rfl := ran_unique earlier earlier'
    obtain rfl := ran_unique lead lead'
    exact ⟨u', stage⟩
  | @child frame m n i u u₁ visit child lead ih =>
    obtain ⟨v, stage⟩ := ih
    obtain ⟨t₁, u₂, lead', stage', -⟩ := stage.child child
    obtain rfl := ran_unique lead lead'
    exact ⟨u₂, stage'⟩

/-- Every node of the body of a function is visited. -/
theorem Generates.visits_body (h : Generates functions s final) (mem : f ∈ functions)
    {info : FunctionInfo} {body : Node}
    (function : f.Function info body) (below : n ∈ body.postorder) :
    ∃ u, Visited functions s info.frame n u := by
  obtain ⟨before, after, split⟩ := append_of_mem mem
  obtain ⟨s₁, u, u', earlier, lead, -⟩ := h.body split function
  refine Node.forall_mem_postorder (P := fun n => ∃ u, Visited functions s info.frame n u) ?_ body
    ⟨u, .body split function.kind function.children earlier lead⟩ n below
  rintro m ⟨u, visit⟩ n child
  obtain ⟨v, stage⟩ := h.stage visit
  obtain ⟨i, child⟩ := getElem?_of_mem child
  obtain ⟨u₁, u₂, lead, -⟩ := stage.child child
  exact ⟨u₁, visit.child child lead⟩

theorem Generates.visits (h : Generates functions s final) (mem : f ∈ functions)
    (below : n ∈ Node.postorderAll f.children) : ∃ frame u, Visited functions s frame n u := by
  obtain ⟨info, body, function⟩ := h.bodies f mem
  rw [function.children, Node.postorderAll_singleton] at below
  exact ⟨info.frame, h.visits_body mem function below⟩

end Stages

/-! ## Regions -/

/-- The line has been appended between `u` and `u'`. -/
def Spans (u u' : Emission) (i : Nat) : Prop := u.buffer.lines.size ≤ i ∧ i < u'.buffer.lines.size

/-- The lines of the code that the emission of the node has appended between `u` and `u'` are
entered from nowhere else, and are left by the lists of the node. -/
structure Region (n : Node) (u u' : Emission) (code : CodeBuffer) : Prop where
  entered : ∀ {r l i}, code.target? r = some (some l) → code.label? i = some l → Spans u u' i →
    Spans u u' r.line
  left : ∀ {r}, (∃ w, r ∈ (u'.exits.get n.id).list w) ↔
    Spans u u' r.line ∧ ∃ l i, code.target? r = some (some l) ∧ code.label? i = some l ∧
      ¬Spans u u' i

section Regions

variable {functions : List Node} {s final : Emission} {frame : Frame} {n : Node} {u u' : Emission}

theorem Stage.own (h : Stage s final frame n u u') : Onward (fun _ => False) u u' :=
  onward_closed h.ran

theorem Stage.ledger (h : Stage s final frame n u u') : Ledger n u u' := by
  obtain ⟨limit, part⟩ := h.part
  obtain ⟨t, ran, ledger⟩ := part.ledger h.generated h.returns h.numbered h.quiet
  obtain rfl := ran_unique h.ran ran
  exact ledger

variable {l : Label} {r : PatchRecord}

/-- The labels of the region are those that have been given out for it. -/
theorem Generates.within_iff (h : Generates functions s final)
    (stage : Stage s final frame n u u') {i : Nat} (found : final.buffer.label? i = some l) :
    l.Within u.names.labels u'.names.labels ↔ Spans u u' i := by
  have before := stage.before
  have own := stage.own
  have after := stage.after
  by_cases late : u'.buffer.lines.size ≤ i
  · have new := after.fresh late found
    exact ⟨fun within => absurd (within.disjoint new) (Nat.lt_irrefl _), fun span =>
      absurd late (Nat.not_le.mpr span.2)⟩
  rw [after.labelled (Nat.lt_of_not_le late)] at found
  by_cases here : u.buffer.lines.size ≤ i
  · exact ⟨fun _ => ⟨here, Nat.lt_of_not_le late⟩, fun _ => own.fresh here found⟩
  rw [own.labelled (Nat.lt_of_not_le here)] at found
  by_cases early : s.buffer.lines.size ≤ i
  · have old := before.fresh early found
    exact ⟨fun within => absurd (old.disjoint within) (Nat.lt_irrefl _), fun span =>
      absurd span.1 here⟩
  rw [before.labelled (Nat.lt_of_not_le early), h.unlabelled] at found
  cases found

/-- A branch to a label that has been given out for the region is in the region. -/
theorem Generates.spans_of_within (h : Generates functions s final)
    (stage : Stage s final frame n u u') (target : final.buffer.target? r = some (some l))
    (within : l.Within u.names.labels u'.names.labels) :
    Spans u u' r.line ∧ u'.buffer.target? r = some (some l) := by
  have filled : u'.buffer.target? r = some (some l) := by
    rcases stage.after.filled target with filled | known | new
    · exact filled
    · exact absurd within known
    · exact absurd (within.disjoint new) (Nat.lt_irrefl _)
  refine ⟨⟨Nat.le_of_not_lt fun early => ?_, CodeBuffer.line_lt_of_target? filled⟩, filled⟩
  -- The lines above the region have not changed while it was appended.
  obtain ⟨code, globals, appended⟩ := stage.ledger.appended
  rw [appended,
    CodeBuffer.target?_congr (CodeBuffer.getElem?_append_of_lt early code globals)] at filled
  rcases stage.before.filled filled with filled | known | old
  · rw [h.untargeted] at filled
    cases filled
  · exact known
  · exact absurd (old.disjoint within) (Nat.lt_irrefl _)

/-- A branch of the region to any other label was open when the emission of the node was
finished. -/
theorem Stage.open_of_not_within (stage : Stage s final frame n u u') (span : Spans u u' r.line)
    (target : final.buffer.target? r = some (some l))
    (out : ¬l.Within u.names.labels u'.names.labels) :
    u'.buffer.target? r = some none := by
  have slot := stage.after.slots span.2
  rw [target] at slot
  obtain ⟨t, found⟩ := Option.isSome_iff_exists.mp slot.symm
  cases t with
  | none => exact found
  | some l' =>
    rw [stage.after.kept found] at target
    cases target
    rcases stage.own.filled found with filled | known | new
    · exact absurd (CodeBuffer.line_lt_of_target? filled) (Nat.not_lt.mpr span.1)
    · exact known.elim
    · exact absurd new out

theorem Generates.target_of_open (h : Generates functions s final)
    (stage : Stage s final frame n u u') (hole : u'.buffer.target? r = some none) :
    ∃ l i, final.buffer.target? r = some (some l) ∧ final.buffer.label? i = some l := by
  have slot := stage.after.slots (CodeBuffer.line_lt_of_target? hole)
  rw [hole] at slot
  obtain ⟨t, target⟩ := Option.isSome_iff_exists.mp slot
  cases t with
  | none =>
    have still : r ∈ final.buffer.openRecords :=
      CodeBuffer.mem_openRecords.mpr (CodeBuffer.isOpen_iff_target?.mpr target)
    rw [h.closed] at still
    cases still
  | some l =>
    have whole : Onward (fun _ => False) s final := onward_closed h.ran
    rcases whole.filled target with filled | known | ⟨k, rfl, low, high⟩
    · rw [h.untargeted] at filled
      cases filled
    · exact known.elim
    · obtain ⟨i, -, found⟩ := whole.covers low high
      exact ⟨_, i, target, found⟩

theorem Generates.region (h : Generates functions s final) (stage : Stage s final frame n u u') :
    Region n u u' final.buffer where
  entered target found span :=
    (h.spans_of_within stage target ((h.within_iff stage found).mpr span)).1
  left {r} := by
    have ledger := stage.ledger
    have opened := ledger.opened r
    rw [CodeBuffer.mem_openRecords, CodeBuffer.isOpen_iff_target?] at opened
    constructor
    · rintro ⟨w, mem⟩
      have span : Spans u u' r.line := ledger.fresh w r mem
      have listed : w ∈ n.kind.ways := by
        by_contra out
        rw [ledger.absent w out] at mem
        cases mem
      have hole := opened.mpr (.inr ⟨w, listed, mem⟩)
      obtain ⟨l, i, target, found⟩ := h.target_of_open stage hole
      refine ⟨span, l, i, target, found, fun inside => ?_⟩
      have filled := (h.spans_of_within stage target ((h.within_iff stage found).mpr inside)).2
      rw [hole] at filled
      cases filled
    · rintro ⟨span, l, i, target, found, out⟩
      have hole := stage.open_of_not_within span target fun within =>
        out ((h.within_iff stage found).mp within)
      rcases opened.mp hole with old | ⟨w, -, mem⟩
      · have line := CodeBuffer.line_lt_of_target?
          (CodeBuffer.isOpen_iff_target?.mp (CodeBuffer.mem_openRecords.mp old))
        exact absurd span.1 (Nat.not_le.mpr line)
      · exact ⟨w, mem⟩

end Regions

/-! ## Short circuits -/

/-- Between the code of the left operand, which ends in `u₁`, and that of the right one, which
begins in `u₂`, there is a label for the left operand's outcome `w` and for nothing else. -/
structure ShortCircuit (left : Node) (w : Way) (u₁ u₂ : Emission) (code : CodeBuffer) : Prop where
  size : u₂.buffer.lines.size = u₁.buffer.lines.size + 1
  entered : ∃ here, code.label? u₁.buffer.lines.size = some here ∧
    ∀ r, code.target? r = some (some here) ↔ r ∈ (u₁.exits.get left.id).list w
  /-- The line above the label is a branch. -/
  branch : ∃ i t, u₁.buffer.lines.size = i + 1 ∧ code.target? ⟨i, .first⟩ = some t

section ShortCircuits

variable {functions : List Node} {s final : Emission} {frame : Frame} {u v : Emission}

variable {type : Ty} {kind : ExprKind} {w : Way}

theorem Generates.shortCircuit_of_shape (h : Generates functions s final) {id : NodeId}
    {l : Location}
    (passes : kind.passes = some w) {a b : Node} (ha : a.type? = some .bool) (hb : b.IsExpression)
    (stage : Stage s final frame (.mk id l (.expression type kind) [a, b]) u v) :
    ∃ u₁ u₂, emitNode (some frame) a u = .ok ((), u₁) ∧
      ahead (some frame) (.mk id l (.expression type kind) [a, b]) 1 u = .ok ((), u₂) ∧
      ShortCircuit a w u₁ u₂ final.buffer := by
  obtain ⟨s₁, u₂, u₃, first, lead, continued, second, rest⟩ :=
    resumed_right passes ⟨_, ha⟩ hb stage.ran
  have left : Stage s final frame a u s₁ := by
    have nothing : ahead (some frame) (.mk id l (.expression type kind) [a, b]) 0 u
        = .ok ((), u) := by
      cases kind <;> rfl
    obtain ⟨t, t', lead', stage', -⟩ := stage.child (i := 0) rfl
    obtain rfl := ran_unique nothing lead'
    obtain rfl := ran_unique first stage'.ran
    exact stage'
  have inside : Onward (fun _ => False) u₂ v := (onward_closed second).then rest
  let here : Label := .numbered s₁.names.labels
  -- The label belongs to the region of the whole expression, so no one comes back to it.
  have mine : here.Within u.names.labels v.names.labels :=
    ⟨_, rfl, left.own.labels, Nat.lt_of_lt_of_le (continued.labels ▸ Nat.lt_succ_self _)
      inside.labels⟩
  have later : Onward (· ≠ here) u₂ final :=
    (inside.mono fun _ => False.elim).then (stage.after.mono fun m out eq => out (eq ▸ mine))
  refine ⟨s₁, u₂, first, lead, continued.size,
    ⟨here, ?_, fun r => ⟨fun target => ?_, fun mem => ?_⟩⟩, ?_⟩
  · rw [later.labelled (continued.size ▸ Nat.lt_succ_self _)]
    exact continued.label
  · rcases later.filled target with filled | known | ⟨k, eq, low, -⟩
    · rw [continued.targets] at filled
      split at filled
      · assumption
      · rcases (left.before.then left.own).filled filled with filled | known | ⟨k, eq, -, high⟩
        · rw [h.untargeted] at filled
          cases filled
        · exact known.elim
        · obtain rfl : s₁.names.labels = k := Label.numbered.inj eq
          exact absurd high (Nat.lt_irrefl _)
    · exact absurd rfl known
    · obtain rfl : s₁.names.labels = k := Label.numbered.inj eq
      rw [continued.labels] at low
      exact absurd low (Nat.not_succ_le_self _)
  · refine later.kept ?_
    rw [continued.targets, if_pos mem]
  · obtain ⟨i, t, -, size, found⟩ := left.ledger.ended ha
    have slot : ∃ t, u₂.buffer.target? ⟨i, .first⟩ = some t := by
      rw [continued.targets]
      split
      · exact ⟨_, rfl⟩
      · exact ⟨t, found⟩
    obtain ⟨t, found⟩ := slot
    have slots := later.slots (CodeBuffer.line_lt_of_target? found)
    rw [found] at slots
    obtain ⟨t', found'⟩ := Option.isSome_iff_exists.mp slots
    exact ⟨i, t', size, found'⟩

theorem Generates.shortCircuit (h : Generates functions s final) {n : Node}
    (is : n.kind = .expression type kind)
    (passes : kind.passes = some w) (stage : Stage s final frame n u v) :
    ∃ left right u₁ u₂, n.children = [left, right] ∧ emitNode (some frame) left u = .ok ((), u₁) ∧
      ahead (some frame) n 1 u = .ok ((), u₂) ∧ ShortCircuit left w u₁ u₂ final.buffer := by
  have shape := stage.shape
  cases shape with
  | and ha hb | or ha hb =>
    cases is
    obtain ⟨u₁, u₂, found⟩ := h.shortCircuit_of_shape passes ha hb stage
    exact ⟨_, _, u₁, u₂, rfl, found⟩
  | _ => cases is <;> cases passes

end ShortCircuits

end Emission

/-! ## Programs -/

/-- Where the emission of a program begins. -/
def Context.emission (c : Context) (emitRuntime : Bool) : Emission :=
  { names := (c.emitPrelude emitRuntime).names, buffer := (c.emitPrelude emitRuntime).buffer }

section Programs

variable {p : Program} {options : Options} {text : String} {tree : SyntaxTree} {c : Context}

theorem SyntaxTree.generate_eq_ok {root : Node} (hroot : tree.root = some root) {emitRuntime : Bool}
    {exits : ExitTable} {c' : Context} (generated : tree.generate c emitRuntime = .ok (exits, c')) :
    ∃ final, emitFunctions root.children (c.emission emitRuntime) = .ok ((), final) ∧
      c'.buffer = final.buffer := by
  unfold SyntaxTree.generate Context.emit StateT.run at generated
  rw [hroot] at generated
  cases emitted : emitFunctions root.children (c.emission emitRuntime) with
  | error f =>
    have failed : emitProgram (some root)
        ⟨(c.emitPrelude emitRuntime).names, (c.emitPrelude emitRuntime).buffer, {}⟩ = .error f :=
          emitted
    rw [failed] at generated
    cases generated
  | ok result =>
    have ran : emitProgram (some root)
        ⟨(c.emitPrelude emitRuntime).names, (c.emitPrelude emitRuntime).buffer, {}⟩ = .ok result :=
          emitted
    rw [ran] at generated
    cases generated
    exact ⟨result.2, rfl, rfl⟩

/-- The prelude has neither labels nor branches. -/
theorem Options.prelude_bare (options : Options) :
    (∀ i, options.prelude.label? i = none) ∧ ∀ r, options.prelude.target? r = none := by
  obtain ⟨emitRuntime, width⟩ := options
  have lines : (Options.prelude ⟨emitRuntime, width⟩).lines
      = (Options.prelude ⟨emitRuntime, 0⟩).lines := by
    cases emitRuntime <;> rfl
  have bare : ∀ line ∈ (Options.prelude ⟨emitRuntime, 0⟩).lines.toList,
      line.instr.isStraight = true ∧ line.instr.label? = none := by
    cases emitRuntime <;> decide +kernel
  rw [← lines] at bare
  refine ⟨fun i => ?_, fun r => ?_⟩
  · refine Option.bind_eq_none_iff.mpr fun line found => ?_
    exact (bare line (Array.mem_toList_iff.mpr (Array.mem_of_getElem? found))).2
  · refine Option.bind_eq_none_iff.mpr fun line found => ?_
    exact Instr.target?_of_isStraight
      (bare line (Array.mem_toList_iff.mpr (Array.mem_of_getElem? found))).1 r.slot

/-- Only what is accepted is compiled. -/
theorem Program.accepted_of_compile (compiled : p.compile options = .ok text) :
    ∃ tree c, p.analyze (.start options) = .ok (.ok tree, c) := by
  unfold Program.compile Program.emit at compiled
  cases analyzed : p.analyze (.start options) with
  | error f =>
    rw [analyzed] at compiled
    cases compiled
  | ok result =>
    obtain ⟨_ | tree, c⟩ := result
    · rw [analyzed] at compiled
      cases compiled
    · exact ⟨tree, c, rfl⟩

/-- What is compiled is emitted, function by function, below the prelude. -/
theorem Program.generates_of_compile (compiled : p.compile options = .ok text) :
    ∃ tree c root final, p.analyze (.start options) = .ok (.ok tree, c) ∧ tree.root = some root ∧
      Generates root.children (c.emission options.emitRuntime) final ∧
        final.buffer.render = .ok text := by
  obtain ⟨tree, c, analyzed⟩ := accepted_of_compile compiled
  have clean : ∀ f ∈ p.functions, Clean f.name := by
    by_contra unclean
    obtain ⟨line, refused⟩ := compile_refused analyzed (by simpa using unclean)
    rw [refused] at compiled
    cases compiled
  obtain ⟨exits, c', generated, -, closed, -, -⟩ := generate_closed analyzed clean
  obtain ⟨fs, registers, -, checked⟩ := checked_of_analyze analyzed
  obtain ⟨root, hroot, -⟩ := checked.root
  obtain ⟨final, ran, buffer⟩ := SyntaxTree.generate_eq_ok hroot generated
  obtain ⟨numbered, bodies⟩ := functions_of_analyze analyzed clean hroot
  have prelude : (c.emission options.emitRuntime).buffer = options.prelude := checked.prelude
  refine ⟨tree, c, root, final, analyzed, hroot,
    ⟨bodies, ?_, ExitTable.quiet_empty, ?_, ?_, ran, buffer ▸ closed⟩, ?_⟩
  · obtain ⟨id, l, kind, children⟩ := root
    rw [Node.ids_mk] at numbered
    exact (nodup_append.mp numbered).1
  · rw [prelude]
    exact options.prelude_bare.1
  · rw [prelude]
    exact options.prelude_bare.2
  · rw [compile_of_analyze analyzed, generated] at compiled
    have rendered : (c'.buffer.render).mapError Failure.internal = .ok text := compiled
    rw [buffer] at rendered
    cases done : final.buffer.render with
    | error f =>
      rw [done] at rendered
      cases rendered
    | ok text' =>
      rw [done] at rendered
      cases rendered
      rfl

/-- In the finished code of a program, the lines of every expression and every statement are a
region: no branch from elsewhere goes to one of its labels, and the branches that leave it are those
that were in the lists of the node when its emission was finished. The right operand of an `and` or
an `or` is reached by one outcome of the left operand only. -/
theorem Program.compile_closes_regions (compiled : p.compile options = .ok text) :
    ∃ tree c root final, p.analyze (.start options) = .ok (.ok tree, c) ∧ tree.root = some root ∧
      emitFunctions root.children (c.emission options.emitRuntime) = .ok ((), final) ∧
      final.buffer.render = .ok text ∧ (∀ f ∈ root.children, ∀ n ∈ Node.postorderAll f.children,
        ∃ frame u, Visited root.children (c.emission options.emitRuntime) frame n u) ∧
      ∀ frame n u, Visited root.children (c.emission options.emitRuntime) frame n u →
        ∃ u', emitNode (some frame) n u = .ok ((), u') ∧ Region n u u' final.buffer ∧
          ∀ type kind w, n.kind = .expression type kind → kind.passes = some w →
            ∃ left right u₁ u₂, n.children = [left, right] ∧
              emitNode (some frame) left u = .ok ((), u₁) ∧
              Visited root.children (c.emission options.emitRuntime) frame right u₂ ∧
              ShortCircuit left w u₁ u₂ final.buffer := by
  obtain ⟨tree, c, root, final, analyzed, hroot, generates, rendered⟩ :=
    generates_of_compile compiled
  refine ⟨tree, c, root, final, analyzed, hroot, generates.ran, rendered, ?_, ?_⟩
  · exact fun f mem n below => generates.visits mem below
  · intro frame n u visit
    obtain ⟨u', stage⟩ := generates.stage visit
    refine ⟨u', stage.ran, generates.region stage, fun type kind w is passes => ?_⟩
    obtain ⟨left, right, u₁, u₂, children, first, lead, circuit⟩ :=
      generates.shortCircuit is passes stage
    refine ⟨left, right, u₁, u₂, children, first, visit.child ?_ lead, circuit⟩
    rw [children]
    rfl

/-- The countdown has an `or`, whose right operand is reached where the left one is false. -/
theorem Program.countdown_closes_regions : ∃ text tree c root final frame n u u' left right u₁ u₂,
    countdown.compile {} = .ok text ∧ countdown.analyze (.start {}) = .ok (.ok tree, c) ∧
      tree.root = some root ∧
      emitFunctions root.children (c.emission true) = .ok ((), final) ∧
        n.kind = .expression .bool .or ∧
      Visited root.children (c.emission true) frame n u ∧ Region n u u' final.buffer ∧
        n.children = [left, right] ∧
      Visited root.children (c.emission true) frame right u₂ ∧
        ShortCircuit left .onFalse u₁ u₂ final.buffer := by
  have found : countdown.hasNode (.expression .bool .or) = true := by decide +kernel
  obtain ⟨tree, c, root, f, n, analyzed, hroot, mem, below, kind⟩ := exists_of_hasNode found
  obtain ⟨text, compiled⟩ := compiles_of_accepted ⟨tree, c, analyzed⟩ (by decide)
  obtain ⟨tree', c', root', final, analyzed', hroot', ran, -, visits, regions⟩ :=
    compile_closes_regions compiled
  cases analyzed.symm.trans analyzed'
  cases hroot.symm.trans hroot'
  obtain ⟨frame, u, visit⟩ := visits f mem n below
  obtain ⟨u', -, region, circuits⟩ := regions frame n u visit
  obtain ⟨left, right, u₁, u₂, children, -, visit', circuit⟩ := circuits _ _ _ kind rfl
  exact ⟨text, tree, c, root, final, frame, n, u, u', left, right, u₁, u₂, compiled, analyzed,
    hroot, ran, kind, visit, region, children, visit', circuit⟩

end Programs

end Backpatch
