import Backpatch.Proofs.Emission.Local
import Backpatch.Proofs.Emission.Parts
import Backpatch.Proofs.Placeholders

/-!
# The ledger of the patch lists

The emission of a node of an accepted program appends lines and changes none. It opens holes, and
every hole that it leaves open stands in one list of the node; the lists of all other nodes are as
they were (`Program.emission_ledger`).
-/

namespace Backpatch

open Emission List

/-! ## Parts of bodies -/

/-- What has happened to lines, holes and lists when the emission of a node has gone from `s` to
`s'`. -/
structure Emission.Ledger (n : Node) (s s' : Emission) : Prop where
  /-- Lines and globals are added behind those that are there. -/
  appended : ∃ code globals, s'.buffer = s.buffer.append code globals
  texts : s.buffer.lineTexts <+: s'.buffer.lineTexts
  /-- What is open was open before or is in a list of the node. -/
  opened : ∀ r, r ∈ s'.buffer.openRecords ↔
    r ∈ s.buffer.openRecords ∨ ∃ w ∈ n.kind.ways, r ∈ (s'.exits.get n.id).list w
  absent : ∀ w, w ∉ n.kind.ways → (s'.exits.get n.id).list w = []
  nodup : ∀ w, ((s'.exits.get n.id).list w).Nodup
  disjoint : ∀ v w, v ≠ w → ((s'.exits.get n.id).list v).Disjoint ((s'.exits.get n.id).list w)
  fresh : ∀ w, ∀ r ∈ (s'.exits.get n.id).list w, s.buffer.lines.size ≤ r.line ∧
    r.line < s'.buffer.lines.size
  below : ∀ m ∈ Node.postorderAll n.children, (s'.exits.get m.id).Quiet
  outside : ∀ id, id ∉ n.ids → s'.exits.get id = s.exits.get id
  /-- A truth value ends in a branch. -/
  ended : n.type? = some .bool → ∃ i t, s.buffer.lines.size ≤ i ∧ s'.buffer.lines.size = i + 1 ∧
    s'.buffer.target? ⟨i, .first⟩ = some t

theorem CodeBuffer.lineTexts_append (b : CodeBuffer) (code : List Instr) (globals : List Global) :
    b.lineTexts <+: (b.append code globals).lineTexts := by
  unfold lineTexts append
  rw [Array.toList_append, map_append]
  exact prefix_append _ _

instance Emission.confined_node {nodes : NodeId → Prop} {frame : Option Frame} {n : Node}
    {known : List Label} [Holds nodes n] : Confined nodes known (emitNode frame n) := by
  unfold emitNode
  split <;> infer_instance

section Part

variable {frame : Frame} {limit : Nat} {n : Node}

/-- The books of code with open exits. -/
theorem Emission.Wrote.ledger {s s' : Emission} {steps : List (Step Way)} {globals : List Global}
    (wrote : Wrote n s s' steps globals) (numbered : n.ids.Nodup) {t : ExitTable}
    (agree : ExitTable.Agree (· ∈ n.ids) t s'.exits) {u : ExitTable}
    (kept : ∀ id, id ∉ n.ids → t.get id = u.get id) :
    Ledger n ⟨s.names, s.buffer, u⟩ ⟨s'.names, s'.buffer, t⟩ := by
  have own : t.get n.id = s'.exits.get n.id := agree n.id n.id_mem_ids
  have lists : ∀ w, (t.get n.id).list w = Step.records w s.buffer.lines.size steps := by
    intro w
    rw [own]
    exact wrote.lists w
  have absent : ∀ w, w ∉ n.kind.ways → (t.get n.id).list w = [] := by
    intro w out
    rw [own]
    exact wrote.ways w out
  -- The lists are the holes of the code that was appended, by their exits.
  refine ⟨⟨_, _, wrote.buffer⟩, ?_, ?_, absent, ?_, ?_, ?_, ?_, kept, ?_⟩
  · show s.buffer.lineTexts <+: s'.buffer.lineTexts
    rw [wrote.buffer]
    exact CodeBuffer.lineTexts_append _ _ _
  · intro r
    show r ∈ s'.buffer.openRecords ↔ r ∈ s.buffer.openRecords ∨ _
    rw [wrote.buffer, CodeBuffer.isOpen_append _ wrote.straight]
    refine or_congr_right ?_
    constructor
    · rintro ⟨w, mem⟩
      rw [← lists] at mem
      refine ⟨w, ?_, mem⟩
      by_contra out
      rw [absent w out] at mem
      exact not_mem_nil mem
    · rintro ⟨w, -, mem⟩
      exact ⟨w, lists w ▸ mem⟩
  · intro w
    rw [lists]
    exact Step.nodup_records w _ steps
  · intro v w ne r left right
    rw [lists] at left right
    exact ne (Step.records_disjoint left right)
  · intro w r mem
    rw [lists] at mem
    have line := Step.line_of_mem_records mem
    show s.buffer.lines.size ≤ r.line ∧ r.line < s'.buffer.lines.size
    rw [wrote.buffer, CodeBuffer.size_append, length_map]
    exact line
  · intro m mem
    have inside : m.id ∈ n.ids := by
      obtain ⟨child, below, mem⟩ := Node.mem_postorderAll.mp mem
      exact Node.ids_subset_of_mem_children below (mem_map_of_mem mem)
    show (t.get m.id).Quiet
    rw [agree m.id inside]
    exact wrote.others m.id (Node.id_ne_of_mem_children numbered mem)
  · intro bool
    obtain ⟨before, last, rfl, branch⟩ := wrote.ended bool
    obtain ⟨t, target⟩ := Step.target?_of_isBranch branch fun _ => none
    refine ⟨s.buffer.lines.size + before.length, t, Nat.le_add_right _ _, ?_, ?_⟩
    · show s'.buffer.lines.size = _
      rw [wrote.buffer, CodeBuffer.size_append, length_map, length_append, length_singleton,
        Nat.add_assoc]
    · show s'.buffer.target? _ = _
      rw [wrote.buffer, CodeBuffer.target?_append_of_le (Nat.le_add_right _ _)]
      simp [target]

/-- A part of a body is emitted wherever its own lists and those below it are empty. -/
theorem Frame.Part.ledger (generated : frame.Generated) (returns : frame.returnType.ir? ≠ none)
    (part : frame.Part limit cleanNames n) (numbered : n.ids.Nodup) {s : Emission}
    (quiet : ∀ id ∈ n.ids, (s.exits.get id).Quiet) :
    ∃ s', emitNode (some frame) n s = .ok ((), s') ∧ Ledger n s s' := by
  -- Where nothing is kept about other nodes, the part writes its code.
  obtain ⟨s', steps, globals, ran, wrote⟩ :=
    part.writes generated returns ⟨s.names, s.buffer, s.exits.only n.ids⟩
      (ExitTable.quiet_only quiet)
  have confined : Confined (· ∈ n.ids) [] (emitNode (some frame) n) := inferInstance
  obtain ⟨t, ran, agree, kept⟩ := confined.locally ran (s.exits.agree_only n.ids)
  exact ⟨_, ran, wrote.ledger numbered agree kept⟩

end Part

/-! ## Functions of a tree -/

/-- What the code of the body of the function needs to know of it. -/
def FunctionInfo.frame (info : FunctionInfo) : Frame :=
  { size := info.frameSize, returnType := info.returnType, slots := info.slots }

/-- The node is a function, and its body is a part that can be emitted. -/
structure Node.Function (n : Node) (info : FunctionInfo) (body : Node) : Prop where
  kind : n.kind = .function info
  children : n.children = [body]
  statement : body.IsStatement
  generated : info.frame.Generated
  returns : info.frame.returnType.ir? ≠ none
  part : ∃ limit, info.frame.Part limit cleanNames body

theorem Routine.Of.function {f : Routine} {n : Node} (of : f.Of n) {limit : Nat}
    (scope : f.Scoped limit cleanNames) : ∃ info body, n.Function info body := by
  obtain ⟨id, l, id', l', nodes, rfl, of⟩ := of
  exact ⟨_, _, rfl, rfl, ⟨_, rfl⟩, f.frame_generated, scope.result, limit,
    .action (.block of) (forall_mem_nil _) scope.body⟩

section Programs

variable {p : Program} {options : Options} {tree : SyntaxTree} {c : Context} {root : Node}

/-- An accepted program is elaborated to routines in which names and registers are in scope. -/
theorem Program.routines_of_analyze (analyzed : p.analyze (.start options) = .ok (.ok tree, c))
    (clean : ∀ f ∈ p.functions, Clean f.name) :
    ∃ fs registers, Checked options tree c (fs, registers) ∧
      ∀ f ∈ fs, f.Scoped registers cleanNames := by
  obtain ⟨fs, registers, elaborated, checked⟩ := checked_of_analyze analyzed
  obtain ⟨globals, chain, -⟩ := Program.elaborate_chain elaborated
  have names : ∀ f ∈ fs, Clean f.name := by
    intro f mem
    have here : f.name ∈ p.functions.map FunctionDef.name :=
      Program.elaborate_names elaborated ▸ mem_map_of_mem mem
    obtain ⟨g, hg, eq⟩ := mem_map.mp here
    exact eq ▸ clean g hg
  exact ⟨fs, registers, checked,
    Routine.Chain.clean (List.append_nil fs ▸ chain) (fun _ _ => clean_runtimeNames) names⟩

theorem Program.functions_of_analyze (analyzed : p.analyze (.start options) = .ok (.ok tree, c))
    (clean : ∀ f ∈ p.functions, Clean f.name) (hroot : tree.root = some root) :
    root.ids.Nodup ∧ ∀ n ∈ root.children, ∃ info body, n.Function info body := by
  obtain ⟨fs, registers, checked, scope⟩ := routines_of_analyze analyzed clean
  obtain ⟨root', hroot', of⟩ := checked.root
  obtain rfl := Option.some.inj (hroot.symm.trans hroot')
  refine ⟨checked.numbered root hroot, fun n mem => ?_⟩
  obtain ⟨f, listed, of⟩ := of.exists_of n mem
  exact of.function (scope f listed)

/-- Every expression and every statement of a function of an accepted program is emitted inside the
frame of the function, whatever has been emitted before, and the books are kept: no line that is
there changes, what is open is what was open before and the lists of the node, and the lists of
other nodes are left alone. -/
theorem Program.emission_ledger (analyzed : p.analyze (.start options) = .ok (.ok tree, c))
    (clean : ∀ f ∈ p.functions, placeholder ∉ f.name.toList)
    (hroot : tree.root = some root) {f : Node}
    (mem : f ∈ root.children) {n : Node} (below : n ∈ Node.postorderAll f.children) {s : Emission}
    (quiet : ∀ m ∈ n.postorder, (s.exits.get m.id).Quiet) :
    ∃ info s', f.kind = .function info ∧ emitNode (some info.frame) n s = .ok ((), s') ∧
      Ledger n s s' ∧
      ∀ m ∈ root.postorder, m ∉ n.postorder → s'.exits.get m.id = s.exits.get m.id := by
  obtain ⟨numbered, functions⟩ := functions_of_analyze analyzed clean hroot
  obtain ⟨info, body, function⟩ := functions f mem
  obtain ⟨limit, part⟩ := function.part
  rw [function.children, Node.postorderAll_singleton] at below
  -- The node is below the root, so the numbers below it are its own.
  have inside : n ∈ root.postorder :=
    Node.mem_postorder.mpr
      (.inr ⟨f, mem, Node.mem_postorder.mpr (.inr ⟨body, by simp [function.children], below⟩)⟩)
  have lists : ∀ id ∈ n.ids, (s.exits.get id).Quiet := forall_mem_map.mpr quiet
  obtain ⟨s', ran, ledger⟩ :=
    (part.below n below).ledger function.generated
      function.returns (Node.ids_nodup numbered inside) lists
  refine ⟨info, s', function.kind, ran, ledger, ?_⟩
  intro m hm out
  exact ledger.outside m.id (Node.id_notMem_ids numbered inside hm out)

/-- The loop of the countdown has a `break` below it, and is left only to what comes after it. -/
theorem Program.countdown_ledger : ∃ tree c root f info n s',
    countdown.analyze (.start {}) = .ok (.ok tree, c) ∧ tree.root = some root ∧ f ∈ root.children ∧
      f.kind = .function info ∧ n.kind = .statement .loop ∧
      emitNode (some info.frame) n ⟨{}, { indentWidth := 2 }, {}⟩ = .ok ((), s') ∧
      Ledger n ⟨{}, { indentWidth := 2 }, {}⟩ s' ∧ (s'.exits.get n.id).list .breaks = [] := by
  have loops : countdown.hasNode (.statement .loop) = true := by decide +kernel
  obtain ⟨tree, c, root, f, n, analyzed, hroot, mem, below, kind⟩ := exists_of_hasNode loops
  obtain ⟨info, s', function, ran, ledger, -⟩ :=
    emission_ledger (s := ⟨{}, { indentWidth := 2 }, {}⟩)
    analyzed (by decide) hroot mem below fun m _ => ExitTable.quiet_empty m.id
  refine ⟨tree, c, root, f, info, n, s', analyzed, hroot, mem, function, kind, ran, ledger, ?_⟩
  refine ledger.absent .breaks ?_
  rw [kind]
  decide

end Programs

end Backpatch
