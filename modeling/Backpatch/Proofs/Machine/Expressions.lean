import Backpatch.Proofs.Machine.Calm
import Backpatch.Proofs.Machine.Reached
import Backpatch.Proofs.Semantics.Node

/-!
# Executing expressions with open exits

The lines that the emission of an expression appends can be executed as soon as they are there.
Those of a number or a text come to their end, with the value in the register that is the place of
the expression. Those of a truth value stop at a branch that is still open, and the hole that
control would take is in the list for the value (`Program.emission_computes`). Nothing has to be
known about where the exits will lead.

An expression that calls no function stores nothing on the way, and comes to the call of the handler
if it meets a divisor that is zero.
-/

namespace Backpatch

open Emission Step List

/-! ## Where the run begins -/

/-- The activation is about to execute the lines that have been appended from `s` to `s'`, in a
function whose lines are the last ones of the buffer. -/
structure Activation.Enters (a : Activation) (s s' : Emission) : Prop where
  rest : a.rest = s'.buffer.instrs.drop s.buffer.lines.size
  inside : a.rest <:+ a.function.body
  function : a.function.body <:+ s'.buffer.instrs

/-- Every name in the expression has a value of its type, and what the name stands for holds the
value. -/
def Activation.Provides (a : Activation) (frame : Frame) (n : Node) (env : Binding → Value) :
    Prop :=
  ∀ m ∈ n.postorder, ∀ type name binding, m.kind = .expression type (.identifier name binding) →
    ∃ w, (env binding).Kept type (.word w) ∧ a.Keeps frame w binding

/-- What places hold where names have these values. -/
def Locals.ofEnv (env : Binding → Value) : Locals := fun place =>
  match (env place.binding).scalar? with
  | some (.word w) => w
  | _ => 0

theorem Locals.ofEnv_of_kept {env : Binding → Value} {place : Place} {type : Ty} {w : Word}
    (h : (env place.binding).Kept type (.word w)) : ofEnv env place = w := by
  unfold ofEnv
  rw [h.scalar]

section Begin

variable {a : Activation} {s s' : Emission} {frame : Frame} {limit : Nat} {n : Node}
  {env : Binding → Value} {code : List Instr} {globals : List Global}

theorem CodeBuffer.length_instrs (b : CodeBuffer) : b.instrs.length = b.lines.size := by
  unfold instrs
  rw [length_map, Array.length_toList]

theorem CodeBuffer.drop_instrs_append (b : CodeBuffer) (code : List Instr)
    (globals : List Global) (i : Nat) :
    (b.append code globals).instrs.drop (b.lines.size + i) = code.drop i := by
  rw [instrs_append, ← length_instrs, ← drop_drop, drop_left]

theorem Activation.Enters.rest_eq (h : a.Enters s s')
    (appended : s'.buffer = s.buffer.append code globals) : a.rest = code := by
  rw [h.rest, appended]
  exact s.buffer.drop_instrs_append code globals 0

theorem Activation.Enters.faces (h : a.Enters s s') (tidy : s'.Tidy limit)
    (appended : s'.buffer = s.buffer.append code globals) : a.Faces code :=
  ⟨h.rest_eq appended, h.rest_eq appended ▸ h.inside,
    tidy.labels.sublist (h.function.sublist.filterMap _)⟩

theorem Activation.Provides.known (h : a.Provides frame n env) (callFree : n.CallFree) :
    n.Known env (.ofEnv env) := by
  rintro ⟨id, l, kind, children⟩ mem
  cases kind with
  | expression type kind =>
    cases kind with
    | call name parameters => exact callFree _ mem type name parameters rfl
    | identifier name binding =>
      rintro place rfl
      obtain ⟨w, kept, -⟩ := h _ mem type name _ rfl
      exact (Locals.ofEnv_of_kept kept).symm ▸ kept
    | _ => trivial
  | _ => trivial

/-- The addresses of the parameters are in registers below the limit. -/
def Frame.Low (frame : Frame) (limit : Nat) : Prop :=
  ∀ (index : Nat) slot, frame.slots[index]? = some (some slot) → slot.Below limit

theorem Activation.Provides.holds (h : a.Provides frame n env) {live : Live} (low : live.Low limit)
    (slots : frame.Low limit) :
    a.Holds frame limit (fun place => n.Reads place ∧ place.Reached frame live) (.ofEnv env) := by
  rintro place ⟨⟨m, mem, type, name, kind⟩, reached⟩
  obtain ⟨w, kept, keeps⟩ := h m mem type name _ kind
  rw [Locals.ofEnv_of_kept kept]
  refine ⟨?_, keeps⟩
  cases place with
  | «variable» pointer =>
    obtain ⟨offset, mem⟩ := reached
    exact Register.below_temp (low _ mem)
  | parameter index => exact slots index

end Begin

/-! ## Where the run leads -/

/-- The line is a branch, and the activation goes where the slot says. -/
def Activation.Chooses (a : Activation) : Instr → Slot → Prop
  | .jump _, .first => True
  | .branch condition _ _, .first => a.values condition = some (.truth true)
  | .branch condition _ _, .second => a.values condition = some (.truth false)
  | _, _ => False

/-- Control is at the hole of the record, and can go nowhere until the hole is filled. -/
structure Activation.Awaits (a : Activation) (code : CodeBuffer) (r : PatchRecord) : Prop where
  rest : a.rest = code.instrs.drop r.line
  isOpen : r ∈ code.openRecords
  chooses : ∃ i, code.instrs[r.line]? = some i ∧ a.Chooses i r.slot

/-- What the machine does where an expression has an outcome: it comes to a state that fits the
value, or to the call of the handler for divisors that are zero. On the way it shows and stores
nothing. -/
def Activation.Leads (a : Activation) (M : Image) (overflow : Option Word) (callers : List Caller)
    (trace : List Event) (Q : Value → Activation → Prop) : Outcome Value → Prop
  | .done _ v =>
      ∃ a', (State.running a callers trace).Steps M overflow (.running a' callers trace) ∧
      a'.memory = a.memory ∧ Q v a'
  | .stopped _ _ =>
      ∃ a' k, (State.running a callers trace).Steps M overflow (.running a' callers trace) ∧
      a'.memory = a.memory ∧ a'.rest = .call none zeroDivisionHandler [] :: k
  | .unfinished => True

/-- The register holds the value, which is of the type. -/
def Activation.Has (a : Activation) (M : Image) (r : Register) (type : Ty) (v : Value) : Prop :=
  ∃ c d, v.Kept type c ∧ c.Shown M d ∧ a.values r = some d

section Run

variable {M : Image} {overflow : Option Word} {a a' : Activation} {callers : List Caller}
  {trace : List Event}

/-- A branch to a hole cannot be executed. -/
theorem Activation.Chooses.execute_eq_none {i : Instr} {slot : Slot} (h : a.Chooses i slot)
    (hole : i.target? slot = some none) (k : List Instr) :
    State.execute M overflow { a with rest := k } callers trace i = none := by
  cases i with
  | jump t =>
    cases slot with
    | first =>
      obtain rfl := Option.some.inj hole
      rfl
    | second => exact h.elim
  | branch condition onTrue onFalse =>
    have goes : ∃ b, a.values condition = some (.truth b) ∧
        (if b then onTrue else onFalse) = none := by
      cases slot with
      | first => exact ⟨true, h, Option.some.inj hole⟩
      | second => exact ⟨false, h, Option.some.inj hole⟩
    obtain ⟨b, held, goes⟩ := goes
    unfold State.execute
    dsimp only
    rw [held]
    show Option.map _ (Activation.goto _ (if b then onTrue else onFalse)) = none
    rw [goes]
    rfl
  | _ => exact h.elim

/-- A machine that waits for a hole to be filled makes no step. -/
theorem Activation.Awaits.step_eq_none {code : CodeBuffer} {r : PatchRecord} (h : a.Awaits code r) :
    (State.running a callers trace).step M overflow = none := by
  obtain ⟨rest, isOpen, i, found, chooses⟩ := h
  have line : a.rest = i :: code.instrs.drop (r.line + 1) := by
    obtain ⟨inside, rfl⟩ := List.getElem?_eq_some_iff.mp found
    rw [rest, drop_eq_getElem_cons inside]
  have hole : code.target? r = some none :=
    CodeBuffer.isOpen_iff_target?.mp (CodeBuffer.mem_openRecords.mp isOpen)
  rw [CodeBuffer.getElem?_instrs] at found
  obtain ⟨l, there, rfl⟩ := Option.map_eq_some_iff.mp found
  unfold CodeBuffer.target? at hole
  rw [there] at hole
  rw [State.step_cons line]
  exact chooses.execute_eq_none hole _

theorem Activation.Leads.imp {Q Q' : Value → Activation → Prop} {o : Outcome Value}
    (h : a.Leads M overflow callers trace Q o) (sub : ∀ v a', Q v a' → Q' v a') :
    a.Leads M overflow callers trace Q' o := by
  cases o with
  | done events v =>
    obtain ⟨a', steps, memory, fits⟩ := h
    exact ⟨a', steps, memory, sub v a' fits⟩
  | stopped events ending => exact h
  | unfinished => trivial

/-- A run inside calm code comes to its end, or to the call of the handler. -/
theorem Activation.leads_of_realizes {β : Type} {xs : List Instr}
    (enclosed : Enclosed xs a.function.body)
    (inside : a.rest <:+ xs) {Q : Value → Activation → Prop} {Q' : β → List Event → State → Prop}
    {R : Value → β → Prop}
    {o : Outcome Value} {o' : Outcome β} (same : Outcome.Matches overflow R o o')
    (realizes : (State.running a callers trace).Realizes M overflow trace Q' o')
    (post : ∀ v c st, R v c → Q' c trace st → ∃ a', st = .running a' callers trace ∧
      a'.memory = a.memory ∧ Q v a') :
    a.Leads M overflow callers trace Q o := by
  obtain ⟨refines, plain⟩ := same
  cases refines with
  | @done v c events related =>
    obtain rfl : events = [] := plain
    obtain ⟨st, steps, reached⟩ := realizes
    rw [List.append_nil] at reached
    obtain ⟨a', rfl, memory, fits⟩ := post v c st related reached
    exact ⟨a', steps, memory, fits⟩
  | stopped events ending =>
    have steps : (State.running a callers trace).Steps M overflow
      (.ended ending (trace ++ events)) := realizes
    rcases steps.stays enclosed inside with ⟨a', ended, -⟩ | ⟨a', k, steps, stays, line⟩
    · cases ended
    · exact ⟨a', k, steps, stays.memory, line⟩
  | unfinished o => trivial

end Run

/-! ## Expressions -/

/-- The meaning of calls where there are none. -/
def CoreSetting.silent (overflow : Option Word) : CoreSetting :=
  { overflow := overflow, call := fun _ _ => .unfinished, limit := 0 }

theorem Image.answers_silent (M : Image) (overflow : Option Word) : M.Answers (.silent overflow) :=
  fun _ _ _ _ _ _ _ _ _ _ => trivial

section Expressions

variable {M : Image} {overflow : Option Word} {a : Activation} {callers : List Caller}
  {trace : List Event}
  {frame : Frame} {limit : Nat} {live : Live} {n : Node} {env : Binding → Value} {s s' : Emission}

/-- A branch that leaves the code by an exit is at a hole of the exit. -/
theorem Step.Takes.exists_slot {W : Type} [DecidableEq W] {step : Step W} {w : W}
    (h : step.Takes a (.via w))
    (ρ : W → Target) : ∃ slot, slot ∈ step.slots w ∧ a.Chooses (step.instr ρ) slot := by
  cases step with
  | line i => exact h.elim
  | jump exit =>
    obtain rfl : exit = .via w := h
    exact ⟨.first, by simp [slots], trivial⟩
  | branch condition onTrue onFalse =>
    obtain ⟨b, held, eq⟩ := h
    cases b with
    | true =>
      obtain rfl : onTrue = .via w := eq
      exact ⟨.first, by simp [slots], held⟩
    | false =>
      obtain rfl : onFalse = .via w := eq
      exact ⟨.second, by simp [slots], held⟩

/-- Where the code of a test stops, control waits at a hole for the outcome. -/
theorem Activation.Stops.awaits {steps : List (Step Bool)} {globals : List Global} {m : Nat}
    {b : Bool} {st : State} (straight : AllStraight steps)
    (h : a.Stops m callers steps (fun _ => none) [] b trace st) :
    ∃ a' r, st = .running a' callers trace ∧ a'.memory = a.memory ∧
      a'.Awaits (s.buffer.append (steps.map (instr fun _ => none)) globals) r ∧
      r ∈ records b s.buffer.lines.size steps := by
  obtain ⟨a', before, step, after, rfl, rfl, moved, takes⟩ := h
  obtain ⟨slot, mem, chooses⟩ := takes.exists_slot fun _ => none
  have listed : ⟨s.buffer.lines.size + before.length, slot⟩ ∈
      records b s.buffer.lines.size (before ++ step :: after) :=
    mem_records.mpr ⟨before.length, step, by simp, rfl, mem⟩
  refine ⟨a', ⟨s.buffer.lines.size + before.length, slot⟩, rfl, moved.memory, ⟨?_, ?_, ?_⟩, listed⟩
  · rw [moved.rest, CodeBuffer.drop_instrs_append]
    simp
  · exact (CodeBuffer.isOpen_append _ straight _ _).mpr (.inr ⟨b, listed⟩)
  · refine ⟨step.instr fun _ => none, ?_, chooses⟩
    rw [CodeBuffer.instrs_append, ← CodeBuffer.length_instrs]
    simp

section Leads

variable (low : live.Low limit) (slots : frame.Low limit) (le : limit ≤ s.names.registers)
  (tidy : s'.Tidy limit) (holds : M.Holds s'.buffer.globals.toList) (enters : a.Enters s s')
  (provides : a.Provides frame n env)

include low slots le tidy holds enters provides

/-- Control is before the lines that have been appended, and the places of the expression can be
read. -/
theorem Activation.Enters.reads (overflow : Option Word) {xs : List Instr} {gs : List Global}
    (appended : s'.buffer = s.buffer.append xs gs) :
    M.Holds gs ∧ a.Reads ⟨M, .silent overflow, frame, limit⟩
      (fun place => n.Reads place ∧ place.Reached frame live) (.ofEnv env) s.names.registers
        (xs ++ []) := by
  rw [appended] at holds
  refine ⟨(Image.holds_append.mp (by simpa [CodeBuffer.append] using holds)).2, le,
    provides.holds low slots, ?_⟩
  rw [List.append_nil]
  exact enters.faces tidy appended

/-- The open code of a truth value stops at a hole for the value. -/
theorem Test.Of.leads {test : Test} (of : test.Of n)
    (all : test.All (fun place => n.Reads place ∧ place.Reached frame live) fun _ _ _ => False)
    (callFree : n.CallFree)
    (appended : s'.buffer = s.buffer.append ((test.code frame s.names).steps.map
      (instr fun _ => none)) (test.code frame s.names).globals) :
    a.Leads M overflow callers trace (fun v a' => ∃ b r, v = .bool b ∧ a'.Awaits s'.buffer r ∧
      r ∈ records b s.buffer.lines.size (test.code frame s.names).steps)
        (n.eval overflow env) := by
  have faces := enters.faces tidy appended
  obtain ⟨known, reads⟩ := enters.reads low slots le tidy holds provides overflow appended
  refine Activation.leads_of_realizes ⟨(test.calm_code all s.names).instr _,
    test.targets_code all s.names, faces.inside, faces.labels⟩ (faces.rest ▸ suffix_refl _)
    (of.means (C := .silent overflow) (provides.known callFree))
    (test.waits (M.answers_silent overflow) s.names all known _ a [] callers trace reads) ?_
  rintro v b st rfl stops
  obtain ⟨a', r, rfl, memory, awaits, listed⟩ :=
    stops.awaits (s := s) (test.lines_code covers_straight.toCovers all s.names)
  exact ⟨a', rfl, memory, b, r, rfl, appended ▸ awaits, listed⟩

/-- The code of a value comes to its end, with the value in its register. -/
theorem Term.Of.leads {term : Term} (of : term.Of n) {type : Ty} (typed : n.type? = some type)
    (all : term.All (fun place => n.Reads place ∧ place.Reached frame live) fun _ _ _ => False)
    (callFree : n.CallFree)
    (appended : s'.buffer = s.buffer.append ((term.code frame s.names).steps.map
      (instr noExits)) (term.code frame s.names).globals) :
    a.Leads M overflow callers trace (fun v a' =>
      a'.rest = [] ∧ a'.Has M (term.code frame s.names).place type v) (n.eval overflow env) := by
  have faces := enters.faces tidy appended
  obtain ⟨known, reads⟩ := enters.reads low slots le tidy holds provides overflow appended
  refine Activation.leads_of_realizes ⟨(term.calm_code all s.names).instr _,
    term.targets_code all s.names, faces.inside, faces.labels⟩ (faces.rest ▸ suffix_refl _)
    (of.means (C := .silent overflow) typed (provides.known callFree))
    (term.runs (M.answers_silent overflow) s.names all known a [] callers trace reads) ?_
  rintro v c st kept ⟨a', d, rfl, moved, held, shown⟩
  exact ⟨a', rfl, moved.memory, moved.rest, c, d, kept, shown, held⟩

end Leads

end Expressions

/-! ## Emission -/

section Emission

variable {frame : Frame} {limit : Nat} {n : Node} {type : Ty} {s : Emission}

/-- What a computation does where nothing is kept about any node, it does where nothing is kept
about its own. -/
theorem Emission.ran_of_quiet {α : Type} {step : EmitM α} {ids : List NodeId}
    [confined : Confined (· ∈ ids) [] step] (quiet : ∀ id ∈ ids, (s.exits.get id).Quiet) {a : α}
    {names : NameSupply} {buffer : CodeBuffer}
    (ran : ∀ t : ExitTable, t.Quiet → ∃ t', step ⟨s.names, s.buffer, t⟩
      = .ok (a, ⟨names, buffer, t'⟩)) :
    ∃ t, step s = .ok (a, ⟨names, buffer, t⟩) := by
  obtain ⟨t', alone⟩ := ran _ (ExitTable.quiet_only quiet)
  obtain ⟨t, ran, -⟩ := confined.locally alone (s.exits.agree_only ids)
  exact ⟨t, ran⟩

/-- The value of an expression that is no truth value is where the emission has left it. -/
theorem Emission.emitValue_eq_ok {frame : Option Frame} (number : n.type? ≠ some .bool)
    {r : Register} {s' : Emission} (ran : emitValue frame n s = .ok (r, s')) :
    emitExpression frame n s = .ok ((), s') ∧ (s'.exits.get n.id).place = some r := by
  obtain ⟨⟨⟩, u, first, second⟩ := bind_eq_ok ran
  unfold valueOf at second
  rw [if_neg number, bind_ok (exitsOf_run n.id u)] at second
  cases found : (u.exits.get n.id).place with
  | none =>
    simp only [found] at second
    cases second
  | some r' =>
    simp only [found] at second
    cases second
    exact ⟨first, found⟩

theorem Term.Emitted.ran {term : Term} (h : term.Emitted frame n)
    (quiet : ∀ id ∈ n.ids, (s.exits.get id).Quiet) :
    ∃ t, emitValue (some frame) n s = .ok ((term.code frame s.names).place,
      ⟨(term.code frame s.names).names,
      s.buffer.append ((term.code frame s.names).steps.map (instr noExits))
        (term.code frame s.names).globals,
      t⟩) := by
  refine ran_of_quiet quiet fun t quiet => ?_
  obtain ⟨t', -, ran⟩ := h s.names s.buffer [] [] t quiet
  rw [CodeBuffer.append_nil] at ran
  exact ⟨t', ran⟩

theorem Test.Emitted.ran {test : Test} (h : test.Emitted frame n)
    (quiet : ∀ id ∈ n.ids, (s.exits.get id).Quiet) :
    ∃ s', emitExpression (some frame) n s = .ok ((), s') ∧
      s'.buffer = s.buffer.append ((test.code frame s.names).steps.map (instr fun _ => none))
        (test.code frame s.names).globals ∧
      (s'.exits.get n.id).onTrue = records true s.buffer.lines.size
        (test.code frame s.names).steps ∧
      (s'.exits.get n.id).onFalse = records false s.buffer.lines.size
        (test.code frame s.names).steps := by
  let code := test.code frame s.names
  have ran : ∃ t, (emitExpression (some frame) n >>= fun _ => takeBranches n.id) s
      = .ok ((records true s.buffer.lines.size code.steps,
          records false s.buffer.lines.size code.steps),
          ⟨code.names, s.buffer.append (code.steps.map (instr fun _ => none)) code.globals,
            t⟩) := by
    refine ran_of_quiet quiet fun t quiet => ?_
    obtain ⟨t', -, ran⟩ := h s.names s.buffer [] [] t quiet
    rw [CodeBuffer.append_nil] at ran
    exact ⟨t', ran⟩
  obtain ⟨t, ran⟩ := ran
  obtain ⟨⟨⟩, s', emitted, taken⟩ := bind_eq_ok ran
  obtain ⟨lists, rest⟩ := takeBranches_eq_ok taken
  injection lists with onTrue onFalse
  injection rest with names buffer exits
  exact ⟨s', emitted, buffer.symm, onTrue.symm, onFalse.symm⟩

/-- An expression of a body that calls no function stands for a test or a term, which reads only
what the expression names. -/
theorem Frame.Part.expression {Q : Signatures} (part : frame.Part limit Q n)
    (typed : n.type? = some type) (callFree : n.CallFree) : ∃ live : Live, live.Low limit ∧
      ((type = .bool ∧ ∃ test : Test, test.Of n ∧
          test.All (fun place => n.Reads place ∧ place.Reached frame live) fun _ _ _ => False) ∨
        (type ≠ .bool ∧ ∃ term : Term, term.Of n ∧
          term.All (fun place => n.Reads place ∧ place.Reached frame live) fun _ _ _ =>
            False)) := by
  have truth : ∀ {test : Test} {live : Live}, test.Of n → test.All (Place.Reached frame live) Q →
      type = .bool ∧
      ∃ test : Test, test.Of n ∧ test.All (fun place => n.Reads place ∧ place.Reached frame live)
        fun _ _ _ => False :=
    fun of all => ⟨Option.some.inj (typed.symm.trans of.type?), _, of, of.reads callFree all⟩
  cases part with
  | @value term n live of low all =>
    refine ⟨live, low, ?_⟩
    cases term with
    | truth test =>
      cases of with
      | truth of => exact .inl (truth of all)
    | _ =>
      have number := of.type?_of_isNumeral rfl
      exact .inr ⟨fun eq => number (eq ▸ typed), _, of, of.reads callFree all⟩
  | @test test n live of low all => exact ⟨live, low, .inl (truth of all)⟩
  | call of => exact absurd rfl (callFree _ (Node.mem_postorder_self _) _ _ _)
  | action of =>
    obtain ⟨kind, is, -⟩ := of.kind
    unfold Node.type? at typed
    rw [is] at typed
    cases typed

end Emission

/-! ## Programs -/

section Programs

variable {p : Program} {options : Options} {tree : SyntaxTree} {c : Context} {root f n : Node}
  {info : FunctionInfo} {type : Ty}

/-- The frame of a function of an accepted program, and its expressions. -/
theorem Program.part_of_analyze (analyzed : p.analyze (.start options) = .ok (.ok tree, c))
    (hroot : tree.root = some root) (mem : f ∈ root.children) (kind : f.kind = .function info)
    (below : n ∈ Node.postorderAll f.children) :
    ∃ limit Q, (c.emission options.emitRuntime).Tidy limit ∧ info.frame.Part limit Q n ∧
      info.frame.Generated ∧ info.frame.Low limit := by
  obtain ⟨fs, limit, elaborated, checked⟩ := checked_of_analyze analyzed
  obtain ⟨globals, chain, -⟩ := Program.elaborate_chain elaborated
  obtain ⟨root', hroot', of⟩ := checked.root
  obtain rfl := Option.some.inj (hroot.symm.trans hroot')
  obtain ⟨g, listed, of⟩ := of.exists_of f mem
  obtain ⟨Q, scope⟩ := chain.scoped g listed
  obtain ⟨id, l, id', l', nodes, rfl, of⟩ := of
  cases kind
  have body : g.frame.Part limit Q (.mk id' l' (.statement .block) nodes) :=
    .action (.block of) (forall_mem_nil _) scope.body
  refine ⟨limit, Q, checked.tidy, body.below n (Node.postorderAll_singleton _ ▸ below),
    g.frame_generated, ?_⟩
  intro index slot found
  obtain ⟨m, rfl, there⟩ := Routine.exists_slot found
  exact Register.below_temp (scope.low index m there)

/-- The emission of an expression that calls no function, whatever has been emitted before:
executing the lines that it has appended computes the value of the expression. A truth value is
known by the open hole at which control has stopped, and by the number that it is made when it is
used as one. A divisor that is zero leads to the call of the handler. Every expression has a value,
where no divisor is zero and the one quotient out of range is known. -/
theorem Program.emission_computes (analyzed : p.analyze (.start options) = .ok (.ok tree, c))
    (hroot : tree.root = some root) (mem : f ∈ root.children) (kind : f.kind = .function info)
    (below : n ∈ Node.postorderAll f.children) (typed : n.type? = some type) (callFree : n.CallFree)
    {s : Emission} (reached : Reaches n (c.emission options.emitRuntime) s) :
    ∃ s' r s'', emitExpression (some info.frame) n s = .ok ((), s') ∧
      emitValue (some info.frame) n s = .ok (r, s'') ∧
      (type ≠ .bool → s'' = s' ∧ (s'.exits.get n.id).place = some r) ∧
      ∀ (M : Image) (overflow : Option Word) (env : Binding → Value) (a : Activation)
        (callers : List Caller) (trace : List Event), M.Holds s''.buffer.globals.toList →
        a.Provides info.frame n env →
        (n.eval overflow env).Plain overflow ∧
        (a.Enters s s'' → a.Leads M overflow callers trace (fun v a' =>
          a'.rest = [] ∧ a'.Has M r type v) (n.eval overflow env)) ∧
        (type = .bool → a.Enters s s' → a.Leads M overflow callers trace
          (fun v a' => ∃ b record, v = .bool b ∧ a'.Awaits s'.buffer record ∧
            (State.running a' callers trace).step M overflow = none ∧
            (record ∈ (s'.exits.get n.id).onTrue ↔ b = true) ∧
              (record ∈ (s'.exits.get n.id).onFalse ↔ b = false))
          (n.eval overflow env)) := by
  obtain ⟨limit, Q, start, part, generated, slots⟩ := part_of_analyze analyzed hroot mem kind below
  obtain ⟨live, low, parts⟩ := part.expression typed callFree
  have before := reached.tidy start
  have quiet := reached.quiet ExitTable.quiet_empty
  rcases parts with ⟨rfl, test, of, all⟩ | ⟨number, term, of, all⟩
  · have names : test.All (Place.Reached info.frame live) cleanNames :=
      all.imp (fun _ => And.right) fun _ _ _ => False.elim
    have emitted := Test.emitted generated of names
    obtain ⟨s', ran, appended, onTrue, onFalse⟩ := emitted.ran quiet
    -- The number of a truth value is made behind the lines of the test.
    obtain ⟨t, valued⟩ := (Term.emitted_truth typed emitted).ran quiet
    have after : s'.Tidy limit := tidy_of_ran ran before
    have valuedAfter := tidy_of_ran valued before
    refine ⟨s', _, _, ran, valued, fun ne => absurd rfl ne, ?_⟩
    intro M overflow env a callers trace holds provides
    refine ⟨(of.means (C := .silent overflow) (provides.known callFree)).plain, fun enters => ?_,
      fun _ enters => ?_⟩
    · exact (Term.Of.truth of).leads low slots before.registers valuedAfter holds enters provides
        typed all callFree rfl
    · have known : M.Holds s'.buffer.globals.toList := by
        rw [appended]
        exact holds
      refine (of.leads low slots before.registers after known enters provides all callFree
        appended).imp ?_
      rintro v a' ⟨b, r, rfl, awaits, listed⟩
      have only : ∀ b', r ∈ records b' s.buffer.lines.size (test.code info.frame s.names).steps
          ↔ b = b' := by
        intro b'
        exact ⟨records_disjoint listed, fun eq => eq ▸ listed⟩
      rw [onTrue, onFalse]
      exact ⟨b, r, rfl, awaits, awaits.step_eq_none, only true, only false⟩
  · have names : term.All (Place.Reached info.frame live) cleanNames :=
      all.imp (fun _ => And.right) fun _ _ _ => False.elim
    obtain ⟨t, valued⟩ := (Term.emitted generated of names).ran quiet
    have after := tidy_of_ran valued before
    have untrue : n.type? ≠ some .bool := fun eq => number (Option.some.inj (typed.symm.trans eq))
    obtain ⟨ran, place⟩ := emitValue_eq_ok untrue valued
    refine ⟨_, _, _, ran, valued, fun _ => ⟨rfl, place⟩, ?_⟩
    intro M overflow env a callers trace holds provides
    refine ⟨(of.means (C := .silent overflow) typed (provides.known callFree)).plain,
      fun enters => ?_, fun bool => absurd bool number⟩
    exact of.leads low slots before.registers after holds enters provides typed all callFree rfl

end Programs

/-! ## A run -/

/-- An activation of these lines, from the given one on, in which all variables hold the same
number. -/
def Activation.uniform (w : Word) (lines : List Instr) (start : Nat) : Activation where
  function := ⟨.void, "", [], lines⟩
  rest := lines.drop start
  values := fun r => some (.address r 0)
  memory := fun _ => some [some w]

/-- No function is called, and the names are those of `int` variables. -/
def Node.countsOnly (n : Node) : Bool :=
  n.postorder.all fun m =>
    match m.kind with
    | .expression _ (.call ..) | .expression _ (.identifier _ (.parameter _)) => false
    | .expression type (.identifier ..) => type = .int
    | _ => true

theorem Node.callFree_of_countsOnly {n : Node} (h : n.countsOnly = true) : n.CallFree := by
  intro m mem type name parameters kind
  have checked := all_eq_true.mp h m mem
  rw [kind] at checked
  cases checked

theorem Activation.provides_uniform {n : Node} (h : n.countsOnly = true) (w : Word)
    (lines : List Instr) (start : Nat)
    (frame : Frame) : (uniform w lines start).Provides frame n fun _ => .int w := by
  intro m mem type name binding kind
  have checked := all_eq_true.mp h m mem
  rw [kind] at checked
  cases binding with
  | «local» pointer =>
    obtain rfl : type = .int := of_decide_eq_true checked
    exact ⟨w, ⟨rfl, rfl⟩, pointer, 0, rfl, rfl⟩
  | parameter index => cases checked

theorem Activation.enters_uniform (w : Word) (s s' : Emission) :
    (uniform w s'.buffer.instrs s.buffer.lines.size).Enters s s' :=
  ⟨rfl, drop_suffix _ _, suffix_refl _⟩

/-- The countdown asks whether a number is zero or negative. Of zero this is true, and the run of
the open code stops at a hole for that. -/
theorem Program.countdown_computes : ∃ tree c root f info n frame s s' M a a' record,
    countdown.analyze (.start {}) = .ok (.ok tree, c) ∧ tree.root = some root ∧ f ∈ root.children ∧
      f.kind = .function info ∧ n.kind = .expression .bool .or ∧
      Visited root.children (c.emission true) frame n s ∧
        emitExpression (some info.frame) n s = .ok ((), s') ∧
      a.Enters s s' ∧ a.Provides info.frame n (fun _ => .int 0) ∧
      (State.running a [] []).Steps M none (.running a' [] []) ∧ a'.Awaits s'.buffer record ∧
      record ∈ (s'.exits.get n.id).onTrue ∧ record ∉ (s'.exits.get n.id).onFalse := by
  have found : countdown.hasPart (fun n => n.kind = .expression .bool .or && n.countsOnly &&
      n.eval none (fun _ => .int 0) = .done [] (.bool true)) = true := by decide +kernel
  obtain ⟨tree, c, root, f, n, analyzed, hroot, mem, below, passed⟩ := exists_of_hasPart found
  simp only [Bool.and_eq_true, decide_eq_true_eq] at passed
  obtain ⟨⟨kind, counts⟩, value⟩ := passed
  obtain ⟨text, compiled⟩ := compiles_of_accepted ⟨tree, c, analyzed⟩ (by decide)
  obtain ⟨tree', c', root', final, analyzed', hroot', generates, -⟩ := generates_of_compile compiled
  cases analyzed.symm.trans analyzed'
  cases hroot.symm.trans hroot'
  obtain ⟨info, body, function⟩ := generates.bodies f mem
  obtain ⟨frame, s, visit⟩ := generates.visits mem below
  have reached := generates.reaches visit
  have typed : n.type? = some .bool := by
    unfold Node.type?
    rw [kind]
  obtain ⟨s', r, s'', ran, valued, -, computes⟩ :=
    emission_computes analyzed hroot mem function.kind below typed
    (Node.callFree_of_countsOnly counts) reached
  obtain ⟨limit, Q, start, -⟩ := part_of_analyze analyzed hroot mem function.kind below
  have tidy := tidy_of_ran valued (reached.tidy start)
  have provides :=
    Activation.provides_uniform counts 0 s'.buffer.instrs s.buffer.lines.size info.frame
  obtain ⟨-, -, stops⟩ := computes s''.buffer.image none _ _ [] [] tidy.holds provides
  have enters := Activation.enters_uniform 0 s s'
  have leads := stops rfl enters
  rw [value] at leads
  obtain ⟨a', steps, -, b, record, eq, awaits, -, onTrue, onFalse⟩ := leads
  cases eq
  exact ⟨tree, c, root, f, info, n, frame, s, s', _, _, a', record, analyzed, hroot, mem,
    function.kind, kind, visit, ran, enters, provides, steps, awaits, onTrue.mpr rfl, fun other =>
    Bool.noConfusion (onFalse.mp other)⟩

end Backpatch
