import Backpatch.Proofs.Elaboration.Mentions
import Backpatch.Proofs.Output.Regions
import Backpatch.Proofs.Output.Types

/-!
# Parameters in memory

A parameter that is assigned to somewhere in the body of its function has a place of its own. The
entry of the function reserves it and stores the parameter there, and from then on the parameter is
used through its place only: where it is read before the assignment as well as behind it. Any other
parameter is used as it comes in, and nothing is stored to it (`Program.compile_spills_parameters`).
-/

namespace Backpatch

open Emission List

/-! ## Nodes -/

namespace Emission

/-- The value of the node is in the register: the node keeps the register as its result when its
code ends with line `k`, and a truth value is tested in that line. -/
def Gives (m : Node) (u' : Emission) (code : CodeBuffer) (k : Nat) (r : Register) : Prop :=
  if m.type? = some .bool then ∃ c, code.instrs[k]?
    = some (.compare c .ne (.register r) (.number 0))
  else u'.buffer.lines.size = k ∧ (u'.exits.get m.id).place = some r

/-- The emission of the node from `u` to `u'` reads the parameter: from the place of its own, or
else as it comes in. -/
def ReadsParameter (frame : Frame) (i : Nat) (m : Node) (u u' : Emission) (code : CodeBuffer) :
    Prop :=
  frame.slots[i]? = some none ∧ Gives m u' code u.buffer.lines.size (.argument i) ∨
    ∃ slot r, frame.slots[i]? = some (some slot) ∧
      code.instrs[u.buffer.lines.size]? = some (.load r slot) ∧
      Gives m u' code (u.buffer.lines.size + 1) r

/-- The emission of the node stores a value to the place of the parameter, as soon as it has the
value. -/
def AssignsParameter (frame : Frame) (i : Nat) (m : Node) (u : Emission) (code : CodeBuffer) :
    Prop :=
  ∃ slot value r u₁, frame.slots[i]? = some (some slot) ∧ m.children = [value] ∧
    emitValue (some frame) value u = .ok (r, u₁) ∧
    code.instrs[u₁.buffer.lines.size]? = some (.store (.register r) slot)

section Nodes

variable {s final u u' : Emission} {frame : Frame} {m : Node} {i : Nat} {r : Register} {x : Instr}

theorem Onward.instr_pushed {known : Label → Prop} (h : Onward known u' final) {level : Nat}
    (lines : u'.buffer.lines = u.buffer.lines.push ⟨level, x⟩) (ordinary : x.isOrdinary = true) :
    final.buffer.instrs[u.buffer.lines.size]? = some x := by
  have lasting : Instr.Lasting (· = x) := by
    intro y slot l eq
    rw [eq]
    cases x <;> first | rfl | cases ordinary
  have found : ∃ line, u'.buffer.lines[u.buffer.lines.size]? = some line ∧ line.instr = x :=
    ⟨_, lines ▸ Array.getElem?_push_size, rfl⟩
  unfold CodeBuffer.instrs
  rw [getElem?_map, Array.getElem?_toList]
  exact Option.map_eq_some_iff.mpr (h.lasts lasting found)

theorem parameterSlot_eq_ok {slot : Option Register}
    (h : parameterSlot (some frame) i u = .ok (slot, u')) :
    frame.slots[i]? = some slot ∧ u' = u := by
  unfold parameterSlot at h
  cases found : frame.slots[i]? with
  | none =>
    simp only [found] at h
    cases h
  | some own =>
    simp only [found] at h
    cases h
    exact ⟨rfl, rfl⟩

/-- The result of a node is the register, or what its test finds in it. -/
theorem gives_setResult {type : Ty} (typed : m.type? = some type)
    (h : setResult m.id type r u = .ok ((), u'))
    {known : Label → Prop} (after : Onward known u' final) :
    Gives m u' final.buffer u.buffer.lines.size r := by
  unfold Gives
  unfold setResult at h
  rw [typed]
  by_cases bool : type = .bool
  · rw [if_pos bool] at h
    rw [if_pos (congrArg some bool)]
    obtain ⟨c, s₁, fresh, h⟩ := bind_eq_ok h
    cases fresh
    obtain ⟨⟨⟩, s₂, written, h⟩ := bind_eq_ok h
    obtain ⟨-, rfl⟩ := write_eq_ok written
    exact ⟨_, ((onward_closed h).then after).instr_pushed rfl rfl⟩
  · rw [if_neg bool] at h
    rw [if_neg fun eq => bool (Option.some.inj eq)]
    cases h
    exact ⟨rfl, by rw [ExitTable.get_set_self]⟩

theorem Stage.reads (h : Stage s final frame m u u') (is : m.mention? = some (.read i)) :
    ReadsParameter frame i m u u' final.buffer := by
  have shape := h.shape
  cases shape with
  | @identifier id l type name binding =>
    obtain rfl : binding = .parameter i := by
      cases binding <;> cases is
      rfl
    obtain ⟨r, u₁, read, result⟩ := bind_eq_ok h.ran
    have gives :=
      gives_setResult (m := .mk id l (.expression type (.identifier name (.parameter i))) []) rfl
        result h.after
    obtain ⟨slot, u₂, located, read⟩ := bind_eq_ok read
    obtain ⟨found, rfl⟩ := parameterSlot_eq_ok located
    cases slot with
    | none =>
      cases read
      exact .inl ⟨found, gives⟩
    | some slot =>
      obtain ⟨value, u₃, fresh, read⟩ := bind_eq_ok read
      cases fresh
      obtain ⟨⟨⟩, u₄, written, read⟩ := bind_eq_ok read
      obtain ⟨-, rfl⟩ := write_eq_ok written
      cases read
      refine .inr ⟨slot, _, found, ((onward_closed result).then h.after).instr_pushed rfl rfl, ?_⟩
      rwa [CodeBuffer.push, Array.size_push] at gives
  | @assign id l binding a ha => cases binding <;> cases is
  | _ => cases is

theorem Stage.assigns (h : Stage s final frame m u u') (is : m.mention? = some (.assign i)) :
    AssignsParameter frame i m u final.buffer := by
  have shape := h.shape
  cases shape with
  | @assign id l binding a ha =>
    obtain rfl : binding = .parameter i := by
      cases binding <;> cases is
      rfl
    obtain ⟨r, u₁, value, rest₁⟩ := bind_eq_ok h.ran
    obtain ⟨pointer, u₂, located, rest₂⟩ := bind_eq_ok rest₁
    obtain ⟨slot, u₃, own, located⟩ := bind_eq_ok located
    obtain ⟨found, rfl⟩ := parameterSlot_eq_ok own
    cases slot with
    | none => cases located
    | some slot =>
      cases located
      obtain ⟨⟨⟩, u₄, written, rest⟩ := bind_eq_ok rest₂
      obtain ⟨-, rfl⟩ := write_eq_ok written
      exact ⟨_, a, r, _, found, rfl, value,
        ((onward_closed rest).then h.after).instr_pushed rfl rfl⟩
  | @identifier id l type name binding => cases binding <;> cases is
  | _ => cases is

end Nodes

end Emission

/-! ## Functions -/

/-- The line reserves memory, or stores a parameter. -/
def Instr.isEntry : Instr → Bool
  | .allocaFrame _ | .allocaSlot _ | .store (.register (.argument _)) _ => true
  | _ => false

/-- The entry of the function makes the place of the parameter and stores the parameter there. No
other line of the function reads the parameter. -/
def FunctionCode.Spills (f : FunctionCode) (i : Nat) (slot : Register) : Prop :=
  ∃ before after, f.body = before ++ .allocaSlot slot :: .store (.register (.argument i))
    slot :: after ∧
    (∀ line ∈ before, line.isEntry = true) ∧ ∀ line ∈ before ++ after, .argument i ∉ line.reads

namespace Routine

variable {f : Routine} {slots : List (Option Nat)} {index i r : Nat} {limit : Nat} {Q : Signatures}
  {line : Instr}

theorem spillLines_append (xs ys : List (Option Nat)) :
    spillLines index (xs ++ ys) = spillLines index xs ++ spillLines (index + xs.length) ys := by
  induction xs generalizing index with
  | nil => rfl
  | cons slot xs ih =>
    have next : index + 1 + xs.length = index + (xs.length + 1) := by omega
    cases slot <;> simp [spillLines, ih, next]

theorem spillLines_entry (mem : line ∈ spillLines index slots)
    (other : ∀ k < slots.length, index + k ≠ i) :
    line.isEntry = true ∧ .argument i ∉ line.reads := by
  obtain ⟨k, slot, found, rfl | rfl⟩ := mem_spillLines.mp mem
  · exact ⟨rfl, not_mem_nil⟩
  · have ne := other k (List.getElem?_eq_some_iff.mp found).1
    exact ⟨rfl, by simp [Instr.reads, Instr.uses, Instr.arrivals, ne.symm]⟩

theorem frameLines_entry (mem : line ∈ f.frameLines) :
    line.isEntry = true ∧ .argument i ∉ line.reads := by
  unfold frameLines at mem
  split at mem
  · rw [mem_singleton.mp mem]
    exact ⟨rfl, not_mem_nil⟩
  · cases mem

/-- Behind the entry, a parameter with a place of its own is not read. -/
theorem bodyLines_reads (h : f.Scoped limit Q) (found : f.slots[i]? = some (some r))
    (s : NameSupply) (mem : line ∈ f.bodyLines s) : .argument i ∉ line.reads := by
  have given : f.frame.Given (· ≠ .argument i) := by
    refine ⟨fun _ => Register.noConfusion, fun index bound => ?_⟩
    have slot : f.frame.slots[index]? = (f.slots[index]?).map (Option.map .temp) := getElem?_map
    unfold Place.pointer
    dsimp only
    rw [slot]
    by_cases same : index = i
    · rw [same, found]
      exact Register.noConfusion
    · rcases f.slots[index]? with _ | _ | r
      · exact fun eq => same (Register.argument.inj eq)
      · exact fun eq => same (Register.argument.inj eq)
      · exact Register.noConfusion
  intro reads
  rcases (leaves_bodyLines h given s).reads_mem _ (mem_flatMap.mpr ⟨line, mem, reads⟩) with ne | set
  · exact ne rfl
  · obtain ⟨line, mem, result⟩ := mem_filterMap.mp set
    have inside : line ∈ (f.function s).body := by
      show line ∈ (f.code s).steps.map (Step.instr Step.noExits)
      rw [map_instr_code]
      exact mem_append_right _ mem
    rcases mem_results (FunctionCode.results_eq _ ▸ mem_filterMap.mpr ⟨line, inside, result⟩) with
      eq | ⟨n, eq⟩
    all_goals cases eq

theorem spills_function (h : f.Scoped limit Q) (found : f.slots[i]? = some (some r))
    (s : NameSupply) : (f.function s).Spills i (.temp r) := by
  obtain ⟨bound, here⟩ := List.getElem?_eq_some_iff.mp found
  have split : f.slots = f.slots.take i ++ some r :: f.slots.drop (i + 1) := by
    rw [← here, List.getElem_cons_drop, List.take_append_drop]
  have length : (f.slots.take i).length = i := length_take_of_le (Nat.le_of_lt bound)
  have lines : spillLines 0 f.slots = spillLines 0 (f.slots.take i) ++ .allocaSlot (.temp r) ::
      .store (.register (.argument i)) (.temp r) :: spillLines (i + 1) (f.slots.drop (i + 1)) := by
    conv_lhs => rw [split, spillLines_append, spillLines, length, Nat.zero_add]
  have entry : ∀ line ∈ f.frameLines ++ spillLines 0 (f.slots.take i), line.isEntry = true ∧
      .argument i ∉ line.reads :=
    forall_mem_append.mpr ⟨fun _ => frameLines_entry, fun _ mem => spillLines_entry mem (by omega)⟩
  refine ⟨f.frameLines ++ spillLines 0 (f.slots.take i),
    spillLines (i + 1) (f.slots.drop (i + 1)) ++ f.bodyLines s, ?_, fun line mem =>
    (entry line mem).1, ?_⟩
  · show (f.code s).steps.map (Step.instr Step.noExits) = _
    rw [map_instr_code, lines]
    simp
  · refine forall_mem_append.mpr ⟨fun line mem =>
      (entry line mem).2, forall_mem_append.mpr ⟨?_, ?_⟩⟩
    · exact fun line mem => (spillLines_entry mem (by omega)).2
    · exact fun line => bodyLines_reads h found s

theorem OfAll.getElem? {fs : List Routine} {nodes : List Node} (h : OfAll fs nodes) {k : Nat}
    (found : fs[k]? = some f) : ∃ n, nodes[k]? = some n ∧ f.Of n := by
  induction fs generalizing nodes k with
  | nil => cases found
  | cons g fs ih =>
    obtain ⟨n, ns, rfl, hg, hfs⟩ := h
    cases k with
    | zero =>
      cases found
      exact ⟨n, rfl, hg⟩
    | succ k => exact ih hfs found

end Routine

theorem FunctionCode.WellTyped.not_store {f : FunctionCode} (h : f.WellTyped)
    (value : Operand) (i : Nat) : .store value (.argument i) ∉ f.body := by
  intro mem
  have cell : f.parameters[i]?.bind IrType.register? = some .cell :=
    (h.reads _ (mem_append_left _ (mem_cons_of_mem _ mem))).2
  obtain ⟨type, -, eq⟩ := Option.bind_eq_some_iff.mp cell
  cases type <;> cases eq

/-! ## Programs -/

/-- The parameters of a function are handled in its tree and its code as its source asks for. -/
structure Spilled (source : FunctionDef) (info : FunctionInfo) (body : Node) (code : FunctionCode)
    (b : CodeBuffer) : Prop where
  /-- The nodes that are bound to parameters are those that mention parameters in the source. -/
  mentions : body.mentions = source.mentions
  slots : ∀ i < source.parameters.length, ∃ slot, info.slots[i]? = some slot ∧
    (slot.isSome = true ↔ .assign i ∈ source.mentions)
  /-- The place of a parameter is made in the entry, and no other register of the program has its
  name. -/
  places : ∀ i slot, info.slots[i]? = some (some slot) → code.Spills i slot ∧
    (b.results.map Register.text).count slot.text = 1 ∧ ∀ j, (Register.argument j).text ≠ slot.text
  /-- Nothing is stored to a parameter without a place. -/
  others : ∀ i, info.slots[i]? = some none → ∀ value, .store value (.argument i) ∉ code.body

section Programs

variable {p : Program} {options : Options} {text : String} {tree : SyntaxTree} {c : Context}
  {root : Node} {fs : List Routine} {registers : Nat} {b : CodeBuffer} {final : Emission}

/-- The code that the emission of the functions leaves is that of the program. -/
theorem Program.Compiled.buffer_eq (h : p.Compiled options fs registers b)
    (analyzed : p.analyze (.start options) = .ok (.ok tree, c)) (hroot : tree.root = some root)
    (ran : emitFunctions root.children (c.emission options.emitRuntime) = .ok ((), final)) :
    final.buffer = b ∧ Routine.OfAll fs root.children := by
  obtain ⟨fs', registers', elaborated, checked⟩ := checked_of_analyze analyzed
  cases h.elaborated.symm.trans elaborated
  obtain ⟨root', hroot', of⟩ := checked.root
  cases hroot.symm.trans hroot'
  refine ⟨?_, of⟩
  have emitted := h.emitted
  unfold Program.emit at emitted
  rw [analyzed] at emitted
  dsimp only at emitted
  cases generated : tree.generate c options.emitRuntime with
  | error f =>
    rw [generated] at emitted
    cases emitted
  | ok result =>
    rw [generated] at emitted
    cases emitted
    obtain ⟨t, ran', buffer⟩ := SyntaxTree.generate_eq_ok hroot generated
    rw [ran] at ran'
    cases ran'
    exact buffer.symm

/-- Each function of the source has its place among those of the program, and among those of the
code. -/
theorem Program.Compiled.spilled (h : p.Compiled options fs registers b) {k : Nat}
    {source : FunctionDef}
    (found : p.functions[k]? = some source) {nodes : List Node} (of : Routine.OfAll fs nodes) :
    ∃ n info body code, nodes[k]? = some n ∧ n.kind = .function info ∧ n.children = [body] ∧
      b.functions[(runtimeCode options.emitRuntime).length + k]? = some code ∧
        Spilled source info body code b := by
  have names := Program.elaborate_names h.elaborated
  have bound := (List.getElem?_eq_some_iff.mp found).1
  have length : fs.length = p.functions.length := by
    rw [← length_map Routine.name, names, length_map]
  obtain ⟨f, hf⟩ : ∃ f, fs[k]? = some f := ⟨_, getElem?_eq_getElem (length ▸ bound)⟩
  obtain ⟨q, placed, rfl⟩ : ∃ q, (Routine.placed fs { registers := registers })[k]? = some q ∧
      q.1 = f := by
    refine Option.map_eq_some_iff.mp ?_
    rw [← getElem?_map, Routine.map_placed, hf]
  obtain ⟨n, hn, id, l, id', l', children, rfl, ofBody⟩ := of.getElem? hf
  obtain ⟨before, _, behind, _, elaborated, globals, kept⟩ :=
    Program.elaborate_mem h.elaborated (source, q.1)
    (mem_of_getElem? (getElem?_zip_eq_some.mpr ⟨found, hf⟩))
  obtain ⟨mentions, inMemory⟩ := source.elaborate_mentions elaborated globals
    fun name m found => Program.elaborate_sound h.elaborated name m (kept name m found)
  obtain ⟨_, chain, -⟩ := Program.elaborate_chain h.elaborated
  obtain ⟨Q, inScope⟩ := chain.scoped q.1 (mem_of_getElem? hf)
  have code : b.functions[(runtimeCode options.emitRuntime).length + k]?
      = some (q.1.function q.2) := by
    rw [h.functions_eq, getElem?_append_right (Nat.le_add_right _ _), Nat.add_sub_cancel_left,
      getElem?_map, placed]
    rfl
  refine ⟨_, _, _, _, hn, rfl, rfl, code, ?_, ?_, ?_, ?_⟩
  · rw [Node.mentions_mk, ofBody.mentions, mentions]
    exact List.append_nil _
  · intro i bound
    obtain ⟨place, own, assigned⟩ := inMemory i bound
    refine ⟨place.map .temp, (q.1.getElem?_slots i).trans (congrArg _ own), ?_⟩
    rwa [Option.isSome_map]
  · intro i place own
    obtain ⟨r, rfl, here⟩ := Routine.exists_slot own
    have spills := Routine.spills_function inScope here q.2
    have apart (j : Nat) : (Register.argument j).text ≠ (Register.temp r).text := by
      have distinct : (Register.argument j).Distinct := trivial
      rw [ne_eq, distinct.text_eq_temp]
      exact Register.noConfusion
    refine ⟨spills, ?_, apart⟩
    obtain ⟨first, last, split, -⟩ := spills
    have given : .temp r ∈ b.results := by
      rw [h.results_eq]
      refine mem_flatMap.mpr ⟨_, mem_of_getElem? code, ?_⟩
      rw [FunctionCode.results_eq, split]
      exact mem_filterMap.mpr ⟨_, mem_append_right _ mem_cons_self, rfl⟩
    rw [count_map_of_iff fun r hr => (h.distinct_results r hr).text_eq_temp]
    exact h.count_temp given
  · exact fun i _ value => (h.wellTyped _ (mem_of_getElem? code)).not_store value i

/-- In the finished code of a program, a parameter has a place of its own if and only if the source
of its function assigns to it. The entry of the function then makes the place and stores the
parameter there, which is not used again. Wherever the parameter is read in the function, it is
loaded from its place, and wherever it is assigned to, the value is stored there. A parameter
without a place is read as it comes in, and nothing is stored to it. -/
theorem Program.compile_spills_parameters (compiled : p.compile options = .ok text) :
    ∃ tree c root final, p.analyze (.start options) = .ok (.ok tree, c) ∧ tree.root = some root ∧
      emitFunctions root.children (c.emission options.emitRuntime) = .ok ((), final) ∧
      final.buffer.render = .ok text ∧ ∀ k source, p.functions[k]? = some source →
        ∃ f info body code,
        root.children[k]? = some f ∧ f.kind = .function info ∧ f.children = [body] ∧
        final.buffer.functions[(runtimeCode options.emitRuntime).length + k]? = some code ∧
        Spilled source info body code final.buffer ∧ ∀ m ∈ body.postorder, ∃ u u',
          Visited root.children (c.emission options.emitRuntime) info.frame m u ∧
          emitNode (some info.frame) m u = .ok ((), u') ∧
          (∀ i, m.mention? = some (.read i) → ReadsParameter info.frame i m u u' final.buffer) ∧
          ∀ i, m.mention? = some (.assign i) → AssignsParameter info.frame i m u final.buffer := by
  obtain ⟨tree, c, root, final, analyzed, hroot, generates, rendered⟩ :=
    generates_of_compile compiled
  obtain ⟨fs, registers, b, output, -⟩ := compiled_of_compile compiled
  obtain ⟨rfl, of⟩ := output.buffer_eq analyzed hroot generates.ran
  refine ⟨tree, c, root, final, analyzed, hroot, generates.ran, rendered, fun k source found => ?_⟩
  obtain ⟨f, info, body, code, here, kind, children, own, spilled⟩ := output.spilled found of
  refine ⟨f, info, body, code, here, kind, children, own, spilled, fun m below => ?_⟩
  have mem : f ∈ root.children := mem_of_getElem? here
  obtain ⟨info', body', function⟩ := generates.bodies f mem
  obtain rfl : info = info' := NodeKind.function.inj (kind.symm.trans function.kind)
  obtain rfl : body = body' := singleton_inj.mp (children.symm.trans function.children)
  obtain ⟨u, visit⟩ := generates.visits_body mem function below
  obtain ⟨u', stage⟩ := generates.stage visit
  exact ⟨u, u', visit, stage.ran, fun i => stage.reads, fun i => stage.assigns⟩

/-- In the countdown, `half` assigns to its parameter, which it also reads. -/
theorem Program.countdown_spills_parameters :
    ∃ (text : String) (b : CodeBuffer) (code : FunctionCode) (r : Register),
    countdown.compile {} = .ok text ∧ b.render = .ok text ∧ b.functions[3]? = some code ∧
      code.Spills 0 r := by
  obtain ⟨text, compiled⟩ := countdown_compiles
  obtain ⟨tree, c, root, final, -, -, -, rendered, functions⟩ := compile_spills_parameters compiled
  obtain ⟨f, info, body, code, -, -, -, own, spilled, -⟩ := functions 0 _ rfl
  obtain ⟨place, found, assigned⟩ := spilled.slots 0 (by decide)
  obtain ⟨slot, rfl⟩ := Option.isSome_iff_exists.mp (assigned.mpr (by decide))
  exact ⟨text, final.buffer, code, slot, compiled, rendered, own, (spilled.places 0 slot found).1⟩

end Programs

end Backpatch
