import Backpatch.Proofs.Machine.Terms

/-!
# Executing the code of actions

The code of an action changes the places as the action says, and leaves by the exit that belongs to
its flow (`Action.executes`). Where an action returns, the machine is about to go back to the caller
with the value (`Scene.Returns`).

As with terms, each way to put code together is treated once, for codes of which it is known what
they do (`Code.Executes`). A variable is live from its declaration to the end of its block, and two
live variables have different cells, so a store changes one place only (`Activation.Stores.assign`).
-/

namespace Backpatch

open Step List

/-! ## Stores -/

namespace Activation.Stores

variable {a : Activation} {frame : Frame} {limit pointer offset : Nat} {live : Live}
  {σ : Locals} {w : Word} {m : Memory}

variable (h : a.Stores frame limit live σ)

include h

/-- The register of a new variable is not in use. -/
theorem setPointer (free : live.Free frame limit pointer offset) (d : Datum) (lines : List Instr) :
    ({ a with rest := lines }.set (.temp pointer) d).Stores frame limit live σ := by
  have kept : ∀ r, r ≠ .temp pointer → ({ a with rest := lines }.set (.temp pointer) d).values r
      = a.values r :=
    fun r ne => if_neg ne
  refine ⟨fun size => ?_, fun q mem => ?_, h.apart, fun index slot found => ?_,
    fun index found => ?_⟩
  · rw [kept .frame Register.noConfusion]
    exact h.reserved size
  · rw [kept (.temp q.1) fun eq => free.newPointer q.2 (Register.temp.inj eq ▸ mem)]
    exact h.locals q mem
  · rw [kept slot fun eq => free.notSlot (eq ▸ mem_of_getElem? found)]
    exact h.slots index slot found
  · rw [kept (.argument index) Register.noConfusion]
    exact h.arguments index found

theorem eq_of_pointer {q q' : Nat × Nat} (mem : q ∈ live) (mem' : q' ∈ live) (same : q.1 = q'.1) :
    q = q' := by
  obtain ⟨-, -, address, -⟩ := h.locals q mem
  obtain ⟨-, -, address', -⟩ := h.locals q' mem'
  rw [same, address'] at address
  have offsets : (q'.2 : Int) = q.2 := (Datum.address.inj (Option.some.inj address)).2
  exact h.apart q mem q' mem' (Int.ofNat.inj offsets.symm)

/-- A new variable has the value that is stored in its cell. -/
theorem declare (sound : frame.Sound limit) (free : live.Free frame limit pointer offset)
    (address : a.values (.temp pointer) = some (.address .frame offset))
    (written : a.memory.write .frame offset w = some m)
    (sized : ∀ b n, a.memory.Sized b n → m.Sized b n)
    (lines : List Instr) : ({ a with rest := lines, memory := m } : Activation).Stores frame limit
      ((pointer, offset) :: live) (σ.set (.variable pointer) w) := by
  have read := Memory.read_write written
  refine ⟨fun size => ⟨(h.reserved size).1, sized _ _ (h.reserved size).2⟩,
    forall_mem_cons.mpr ⟨?_, fun q mem => ?_⟩, forall_mem_cons.mpr ⟨?_, fun q mem => ?_⟩,
    fun index slot found => ?_, fun index found => ?_⟩
  · refine ⟨free.low, free.inFrame, address, ?_⟩
    rw [read, if_pos ⟨rfl, rfl⟩, Locals.set_self]
  · obtain ⟨low, inside, address', held⟩ := h.locals q mem
    refine ⟨low, inside, address', ?_⟩
    have cell : ¬(Register.frame = .frame ∧ (q.2 : Int) = offset) := fun eq =>
      free.newOffset q.1 (Int.ofNat.inj eq.2 ▸ mem)
    have place : Place.variable q.1 ≠ .variable pointer := fun eq =>
      free.newPointer q.2 (Place.variable.inj eq ▸ mem)
    rw [read, if_neg cell, Locals.set_of_ne place]
    exact held
  · refine forall_mem_cons.mpr ⟨fun _ => rfl, fun q mem same => ?_⟩
    have taken : (q.1, offset) ∈ live := Eq.symm (show offset = q.2 from same) ▸ mem
    exact absurd taken (free.newOffset q.1)
  · refine forall_mem_cons.mpr ⟨fun same => ?_, h.apart q mem⟩
    have taken : (q.1, offset) ∈ live := (show q.2 = offset from same) ▸ mem
    exact absurd taken (free.newOffset q.1)
  · obtain ⟨n, -, rfl⟩ := sound.low index slot found
    obtain ⟨address', size, held⟩ := h.slots index _ found
    refine ⟨address', sized _ _ size, ?_⟩
    rw [read, if_neg fun eq => Register.noConfusion eq.1, Locals.set_of_ne Place.noConfusion]
    exact held
  · rw [Locals.set_of_ne Place.noConfusion]
    exact h.arguments index found

variable {place : Place}

/-- The address of a place that is assigned to can be stored to. -/
theorem exists_address (reached : place.Reached frame live) (stored : place.Stored frame) :
    ∃ block index, a.values (place.pointer frame) = some (.address block index) ∧
      ∃ size, a.memory.Sized block size ∧ 0 ≤ index ∧ index < (size : Int) := by
  cases place with
  | «variable» pointer =>
    obtain ⟨offset, mem⟩ := reached
    obtain ⟨-, inside, address, -⟩ := h.locals _ mem
    have size : 0 < frame.size := Int.lt_of_le_of_lt (Int.natCast_nonneg offset) inside
    refine ⟨.frame, offset, address, _, (h.reserved size).2, Int.natCast_nonneg offset, ?_⟩
    rw [Int.toNat_of_nonneg (Int.le_of_lt size)]
    exact inside
  | parameter index =>
    obtain ⟨slot, found⟩ := stored
    obtain ⟨address, size, -⟩ := h.slots index slot found
    have pointer : Place.pointer frame (.parameter index) = slot := by
      unfold Place.pointer
      dsimp only
      rw [found]
      rfl
    exact ⟨slot, 0, pointer ▸ address, 1, size, Int.le_refl 0, Int.one_pos⟩

/-- A store to the address of a place changes what that place holds, and nothing else. -/
theorem assign (sound : frame.Sound limit) (reached : place.Reached frame live)
    (stored : place.Stored frame) {block : Register} {index : Int}
    (address : a.values (place.pointer frame) = some (.address block index))
    (written : a.memory.write block index w = some m)
    (sized : ∀ b n, a.memory.Sized b n → m.Sized b n) (lines : List Instr) :
    ({ a with rest := lines, memory := m } : Activation).Stores frame limit live
    (σ.set place w) := by
  have read := Memory.read_write written
  have reserved : 0 < frame.size → a.values .frame = some (.address .frame 0) ∧
      m.Sized .frame frame.size.toNat :=
    fun size => ⟨(h.reserved size).1, sized _ _ (h.reserved size).2⟩
  cases place with
  | «variable» pointer =>
    -- Live variables have offsets of their own, so no other one is changed.
    obtain ⟨offset, mem⟩ := reached
    obtain ⟨-, -, own, -⟩ := h.locals _ mem
    obtain ⟨rfl, rfl⟩ := Datum.address.inj (Option.some.inj (own.symm.trans address))
    refine ⟨reserved, fun q mem' => ?_, h.apart, fun i slot found => ?_, fun i found => ?_⟩
    · obtain ⟨low, inside, address', held⟩ := h.locals q mem'
      refine ⟨low, inside, address', ?_⟩
      by_cases same : q = (pointer, offset)
      · rw [same, read, if_pos ⟨rfl, rfl⟩, Locals.set_self]
      · have cell : ¬(Register.frame = .frame ∧ (q.2 : Int) = offset) := fun eq =>
          same (h.apart q mem' _ mem (Int.ofNat.inj eq.2))
        have place : Place.variable q.1 ≠ .variable pointer := fun eq =>
          same (h.eq_of_pointer mem' mem (Place.variable.inj eq))
        rw [read, if_neg cell, Locals.set_of_ne place]
        exact held
    · obtain ⟨n, -, rfl⟩ := sound.low i slot found
      obtain ⟨address', size, held⟩ := h.slots i _ found
      refine ⟨address', sized _ _ size, ?_⟩
      rw [read, if_neg fun eq => Register.noConfusion eq.1, Locals.set_of_ne Place.noConfusion]
      exact held
    · rw [Locals.set_of_ne Place.noConfusion]
      exact h.arguments i found
  | parameter position =>
    -- The place of a parameter is a block of its own, apart from the frame.
    obtain ⟨slot, own⟩ := stored
    obtain ⟨n, -, rfl⟩ := sound.low position slot own
    have pointer : Place.pointer frame (.parameter position) = .temp n := by
      unfold Place.pointer
      dsimp only
      rw [own]
      rfl
    rw [pointer, (h.slots position _ own).1] at address
    obtain ⟨rfl, rfl⟩ := Datum.address.inj (Option.some.inj address)
    refine ⟨reserved, fun q mem => ?_, h.apart, fun i slot found => ?_, fun i found => ?_⟩
    · obtain ⟨low, inside, address', held⟩ := h.locals q mem
      refine ⟨low, inside, address', ?_⟩
      rw [read, if_neg fun eq => Register.noConfusion eq.1, Locals.set_of_ne Place.noConfusion]
      exact held
    · obtain ⟨address', size, held⟩ := h.slots i slot found
      refine ⟨address', sized _ _ size, ?_⟩
      by_cases same : i = position
      · subst same
        obtain rfl := Option.some.inj (Option.some.inj (found.symm.trans own))
        rw [read, if_pos ⟨rfl, rfl⟩, Locals.set_self]
      · have cell : ¬(slot = .temp n ∧ (0 : Int) = 0) := fun eq =>
          same (sound.distinct i position slot found (eq.1 ▸ own))
        rw [read, if_neg cell, Locals.set_of_ne fun eq => same (Place.parameter.inj eq)]
        exact held
    · have other : i ≠ position := by
        rintro rfl
        cases found.symm.trans own
      rw [Locals.set_of_ne fun eq => other (Place.parameter.inj eq)]
      exact h.arguments i found

end Activation.Stores

/-! ## Where an action leads -/

section Definitions

variable (E : Scene)

/-- Control is at these lines of the function, and the places hold what is said. -/
def Scene.Arrives (function : FunctionCode) (callers : List Caller) (live : Live)
    (lines : List Instr) (σ : Locals) (trace : List Event) (st : State) : Prop :=
  ∃ a, st = .running a callers trace ∧ a.function = function ∧ a.rest = lines ∧
    a.Stores E.frame E.limit live σ

/-- The next step goes back to the caller, with the value if there is one. -/
def Scene.Returns (callers : List Caller) (value : Option Scalar) (trace : List Event)
    (st : State) : Prop :=
  ∃ d, Option.Rel (Scalar.Shown E.image) value d ∧
    st.step E.image E.setting.overflow = State.leave trace callers d

/-- Control has left an action: by an exit, or it is about to leave the function. What the action
has declared is live where control goes on behind it. -/
def Scene.Departs (function : FunctionCode) (callers : List Caller) (live declared : Live)
    (κ : Leave → List Instr) : Flow (Option Scalar) × Locals → List Event → State → Prop
  | (.next, σ) => E.Arrives function callers (declared ++ live) (κ .next) σ
  | (.break, σ) => E.Arrives function callers live (κ .break) σ
  | (.continue, σ) => E.Arrives function callers live (κ .continue) σ
  | (.return value, _) => E.Returns callers value

/-- The code changes the places and leaves as the outcome says. -/
def Code.Executes (live declared : Live) (σ : Locals) (s : NameSupply) (c : Code Leave)
    (o : Outcome (Flow (Option Scalar) × Locals)) : Prop :=
  ∀ ρ κ a k callers trace, Lands a.function.body ρ κ →
    a.Ready E live σ s.registers (c.steps.map (instr ρ) ++ k) →
    (State.running a callers trace).Realizes E.image E.setting.overflow trace
      (E.Departs a.function callers live declared κ) o

end Definitions

section Parts

open State

variable {E : Scene} {live declared : Live} {σ : Locals} {s : NameSupply} {a a' : Activation}
  {k : List Instr} {callers : List Caller} {trace : List Event}

variable {c r c' : Code Leave} {κ : Leave → List Instr} {ρ : Leave → Target} {o : Outcome Scalar}
  {function : FunctionCode} {M : Image} {overflow : Option Word} {offset pointer : Nat}
  {live' declared' : Live}
  {st : State} {body atCheck : List Instr} {condition : Locals → Outcome Bool}
  {next : Flow (Option Scalar) × Locals → Outcome (Flow (Option Scalar) × Locals)}

theorem Scene.Arrives.mono {lines : List Instr}
    (h : E.Arrives function callers live lines σ trace st)
    (sub : live' ⊆ live) : E.Arrives function callers live' lines σ trace st := by
  obtain ⟨a, rfl, same, rest, stores⟩ := h
  exact ⟨a, rfl, same, rest, stores.mono sub⟩

/-- Control has left a part of an action, whose own variables are not live any more. -/
theorem Scene.Departs.mono {r : Flow (Option Scalar) × Locals}
    (h : E.Departs function callers live declared κ r trace st) (sub : live' ⊆ live)
    (sub' : declared' ++ live' ⊆ declared ++ live) :
    E.Departs function callers live' declared' κ r trace st := by
  obtain ⟨flow, σ⟩ := r
  cases flow with
  | next => exact Scene.Arrives.mono h sub'
  | «break» | «continue» => exact Scene.Arrives.mono h sub
  | «return» value => exact h

theorem Action.names_le (frame : Frame) (x : Action) (s : NameSupply) :
    s.registers ≤ (x.code frame s).names.registers :=
  (Reading.results_of_read (x.read_code s [] fun _ => none)).1

theorem step_exit {w : Leave} (lands : Lands a.function.body ρ κ)
    (line : a.rest = .jump (ρ w) :: k) : ∃ block origin, (running a callers trace).step M overflow
      = some (running { a with rest := κ w, block := block, origin := origin } callers trace) := by
  obtain ⟨l, target, there⟩ := lands w
  rw [target] at line
  exact ⟨_, _, step_jump line there⟩

theorem departs_fallThrough (lands : Lands a.function.body ρ κ) (same : a'.function = a.function)
    (line : a'.rest = fallThrough.instr ρ :: k)
    (stores : a'.Stores E.frame E.limit (declared ++ live) σ) :
    E.Realizes a' callers trace (E.Departs a.function callers live declared κ)
      (pure (.next, σ)) := by
  obtain ⟨block, origin, jumped⟩ := step_exit (same ▸ lands) line
  exact .step jumped (.pure ⟨_, rfl, same, rfl, stores.goto ..⟩)

/-- The value for a new variable is stored in its cell. -/
theorem departs_declare {value : Operand} {w : Word} (sound : E.Sound)
    (lands : Lands a.function.body ρ κ) (same : a'.function = a.function)
    (line : a'.rest = .store value (.temp pointer) :: fallThrough.instr ρ :: k)
    (held : a'.word value = some w) (stores : a'.Stores E.frame E.limit live σ)
    (free : live.Free E.frame E.limit pointer offset)
    (address : a'.values (.temp pointer) = some (.address .frame offset)) :
    E.Realizes a' callers trace (E.Departs a.function callers live [(pointer, offset)] κ)
      (pure (.next, σ.set (.variable pointer) w)) := by
  have size : 0 < E.frame.size := Int.lt_of_le_of_lt (Int.natCast_nonneg offset) free.inFrame
  have inside : (offset : Int) < E.frame.size.toNat := by
    rw [Int.toNat_of_nonneg (Int.le_of_lt size)]
    exact free.inFrame
  obtain ⟨m, written, sized⟩ :=
    (stores.reserved size).2.exists_write (Int.natCast_nonneg offset) inside w
  refine .step (step_store line held address written) ?_
  exact departs_fallThrough lands same rfl (stores.declare sound.frame free address written sized _)

theorem Action.executes_declare_none (sound : E.Sound)
    (free : live.Free E.frame E.limit pointer offset) :
    ((Action.declare offset pointer none).code E.frame s).Executes E live [(pointer, offset)] σ s
      (pure (.next, σ.set (.variable pointer) 0)) := by
  intro ρ κ a k callers trace lands ready
  have size : 0 < E.frame.size := Int.lt_of_le_of_lt (Int.natCast_nonneg offset) free.inFrame
  refine .step (step_slotAddress ready.faces.rest (ready.stores.reserved size).1) ?_
  exact departs_declare sound lands rfl rfl rfl (ready.stores.setPointer free _ _) free
    (Activation.set_self ..)

theorem Action.executes_declare_some (sound : E.Sound) {value : Term}
    (h : (value.code E.frame s).Runs E (Place.Reached E.frame live) σ s o)
    (free : live.Free E.frame E.limit pointer offset) :
    ((Action.declare offset pointer (some value)).code E.frame s).Executes E live
      [(pointer, offset)] σ s (do
        let w ← (← o).number
        return (.next, σ.set (.variable pointer) w)) := by
  intro ρ κ a k callers trace lands ready
  unfold Action.code at ready
  rw [map_append, map_cons, map_instr_lift, append_assoc, cons_append] at ready
  have size : 0 < E.frame.size := Int.lt_of_le_of_lt (Int.natCast_nonneg offset) free.inFrame
  refine .step (step_slotAddress ready.faces.rest (ready.stores.reserved size).1) ?_
  have stores := ready.stores.setPointer free (.address .frame offset)
  refine h.word ⟨ready.low, (stores _).holds sound.frame,
    ready.faces.suffix (suffix_cons _ _) rfl rfl⟩ fun w trace a' moved held => ?_
  have address : a'.values (.temp pointer) = some (.address .frame offset) :=
    (moved.values _ (Register.below_temp (Nat.lt_of_lt_of_le free.low ready.low))).trans
      (Activation.set_self ..)
  exact departs_declare sound lands moved.function moved.rest (Activation.word_register held)
    ((stores _).moved sound.frame ready.low moved) free address

theorem Action.executes_assign {place : Place} (sound : E.Sound) {value : Term}
    (h : (value.code E.frame s).Runs E (Place.Reached E.frame live) σ s o)
    (reached : place.Reached E.frame live) (stored : place.Stored E.frame) :
    ((Action.assign place value).code E.frame s).Executes E live [] σ s (do
      let w ← (← o).number
      return (.next, σ.set place w)) := by
  intro ρ κ a k callers trace lands ready
  unfold Action.code at ready
  rw [map_append, map_instr_lift, append_assoc] at ready
  refine h.word (ready.reads sound) fun w trace a' moved held => ?_
  have stores := ready.stores.moved sound.frame ready.low moved
  obtain ⟨block, index, address, size, sized, low, high⟩ := stores.exists_address reached stored
  obtain ⟨m, written, kept⟩ := sized.exists_write low high w
  refine .step (step_store moved.rest (Activation.word_register held) address written) ?_
  exact departs_fallThrough lands moved.function rfl
    (stores.assign sound.frame reached stored address written kept _)

theorem Action.executes_drop (sound : E.Sound) {value : Term}
    (h : (value.code E.frame s).Runs E (Place.Reached E.frame live) σ s o) :
    ((Action.drop value).code E.frame s).Executes E live [] σ s (do
      let _ ← o
      return (.next, σ)) := by
  intro ρ κ a k callers trace lands ready
  unfold Action.code at ready
  rw [map_append, map_instr_lift, append_assoc] at ready
  refine (h _ _ callers trace (ready.reads sound)).chain ?_
  rintro v trace _ ⟨a', d, rfl, moved, -, -⟩
  exact departs_fallThrough lands moved.function moved.rest
    (ready.stores.moved sound.frame ready.low moved)

/-- A call of a function that returns nothing. -/
theorem Action.executes_run (sound : E.Sound) (name : String) {arguments : Arguments}
    {o : Outcome (List Scalar)}
    (h : (arguments.code E.frame s).Runs E (Place.Reached E.frame live) σ s o)
    {next : Option Scalar → Outcome (Flow (Option Scalar) × Locals)}
    (none : next none = pure (.next, σ)) (some : ∀ v, next (some v) = .unfinished) :
    ((Action.run name arguments).code E.frame s).Executes E live [] σ s
      (do next (← E.setting.call name (← o))) := by
  intro ρ κ a k callers trace lands ready
  unfold Action.code at ready
  rw [map_append, map_instr_lift, append_assoc] at ready
  refine (h _ _ callers trace (ready.reads sound)).chain ?_
  rintro vs trace _ ⟨a', data, rfl, moved, given, shown⟩
  have answer := sound.answers name vs data shown _ callers trace _ _ (step_call moved.rest given)
  refine answer.chain fun result trace st resumed => ?_
  cases result with
  | some v =>
    rw [some]
    trivial
  | none =>
    obtain rfl := resumed rfl
    rw [none]
    exact departs_fallThrough lands moved.function rfl
      ((ready.stores.moved sound.frame ready.low moved).goto _ _ _)

/-- The outcome of the test does not matter, since both exits lead to the same label. -/
theorem Action.executes_check (sound : E.Sound) {test : Test} {o : Outcome Bool}
    (h : (test.code E.frame s).Decides E (Place.Reached E.frame live) σ s o) :
    ((Action.check test).code E.frame s).Executes E live [] σ s (do
      let _ ← o
      return (.next, σ)) := by
  intro ρ κ a k callers trace lands ready
  unfold Action.code at ready
  rw [map_append, map_instr_bind, append_assoc] at ready
  have here : linesAfter (test.code E.frame s).names.label a.function.body
      = some (fallThrough.instr ρ :: k) :=
    ready.faces.label (suffix_append ..)
  refine (h _ (fun _ => fallThrough.instr ρ :: k) a _ callers trace (fun _ => ⟨_, rfl, here⟩)
    (ready.reads sound)).chain ?_
  rintro b trace _ ⟨a', rfl, moved, -⟩
  exact departs_fallThrough lands moved.function moved.rest
    (ready.stores.moved sound.frame ready.low moved)

theorem lands_orNext {onTrue : Label} {ifTrue : List Instr} (lands : Lands body ρ κ)
    (atTrue : linesAfter onTrue body = some ifTrue) :
    Lands body (fun b => (orNext onTrue b).target ρ) (fun b => if b then ifTrue else κ .next) := by
  intro b
  cases b with
  | true => exact ⟨onTrue, rfl, atTrue⟩
  | false => exact lands .next

/-- Control goes on with an action inside another one, whose variables are dropped when it is
left. -/
theorem Code.Executes.enter {o : Outcome (Flow (Option Scalar) × Locals)}
    (h : c.Executes E live declared σ s o) (lands : Lands a.function.body ρ κ)
    (ready : a'.Ready E live σ s.registers (c.steps.map (instr ρ) ++ k))
    (function : a'.function = a.function) :
    E.Realizes a' callers trace (E.Departs a.function callers live [] κ) o := by
  rw [← function] at lands ⊢
  refine (h ρ κ a' k callers trace lands ready).imp fun r trace st post => ?_
  exact post.mono (List.Subset.refl live) (subset_append_right ..)

theorem Action.executes_when (sound : E.Sound) (condition : Test) (body : Action)
    {o : Outcome Bool} {o' : Outcome (Flow (Option Scalar) × Locals)} :
    let t := condition.code E.frame s
    t.Decides E (Place.Reached E.frame live) σ s o →
      (body.code E.frame t.names.nextLabel).Executes E live declared σ t.names.nextLabel o' →
      ((Action.when condition body).code E.frame s).Executes E live [] σ s
        (do if ← o then o' else return (.next, σ)) := by
  intro t h h' ρ κ a k callers trace lands ready
  unfold Action.code at ready
  rw [map_append, map_instr_bind, append_assoc] at ready
  let atThen : List Instr := (body.code E.frame t.names.nextLabel).steps.map (instr ρ) ++ k
  have tail := suffix_append (t.steps.map (instr fun b => (orNext t.names.label b).target ρ))
    (Instr.label t.names.label :: atThen)
  refine (h _ _ a _ callers trace (lands_orNext lands (ready.faces.label tail))
    (ready.reads sound)).chain ?_
  rintro b trace _ ⟨a', rfl, moved, -⟩
  cases b with
  | true =>
    exact h'.enter lands (ready.moved sound moved (.trans (suffix_cons ..) tail)
      (condition.names_le E.frame s).1) moved.function
  | false => exact .pure ⟨a', rfl, moved.function, moved.rest,
    ready.stores.moved sound.frame ready.low moved⟩

theorem Action.executes_either (sound : E.Sound) (condition : Test)
    (thenBranch elseBranch : Action) {o : Outcome Bool}
    {o₁ o₂ : Outcome (Flow (Option Scalar) × Locals)} :
    let t := condition.code E.frame s
    let c := thenBranch.code E.frame t.names.nextLabel
    t.Decides E (Place.Reached E.frame live) σ s o →
      c.Executes E live declared σ t.names.nextLabel o₁ →
      (elseBranch.code E.frame c.names.nextLabel).Executes E live declared' σ c.names.nextLabel o₂ →
      ((Action.either condition thenBranch elseBranch).code E.frame s).Executes E live [] σ s
        (do if ← o then o₁ else o₂) := by
  intro t c h h₁ h₂ ρ κ a k callers trace lands ready
  let c' := elseBranch.code E.frame c.names.nextLabel
  have le : s.registers ≤ t.names.registers := (condition.names_le E.frame s).1
  have le₁ : s.registers ≤ c.names.registers :=
    Nat.le_trans le (thenBranch.names_le E.frame t.names.nextLabel)
  have lines : ((Action.either condition thenBranch elseBranch).code E.frame s).steps.map
        (instr ρ) ++ k
      = t.steps.map (instr fun b => (toLabels t.names.label c.names.label b).target ρ) ++
        Instr.label t.names.label :: (c.steps.map (instr ρ) ++
          Instr.label c.names.label :: (c'.steps.map (instr ρ) ++ k)) := by
    simp only [Action.code, map_append, map_instr_bind, append_assoc, map_cons, cons_append]
    rfl
  refine h.fork (ready.reads sound) lines (fun trace a' sub moved _ => ?_)
    fun trace a' sub moved _ => ?_
  · exact h₁.enter lands (ready.moved sound moved sub le) moved.function
  · exact h₂.enter lands (ready.moved sound moved sub le₁) moved.function

/-! ### Loops -/

theorem lands_backTo {check : Label} (lands : Lands body ρ κ)
    (there : linesAfter check body = some atCheck) :
    Lands body (fun w => (backTo check w).target ρ) (fun w =>
      if w = .break then κ .next else atCheck) := by
  intro w
  cases w with
  | next | «continue» => exact ⟨check, rfl, there⟩
  | «break» => exact lands .next

/-- The rounds of a loop, from its condition on: each ends at the condition again, or behind the
loop. -/
theorem departs_iterate (atBody : List Instr)
    {body : Locals → Outcome (Flow (Option Scalar) × Locals)}
    (test : ∀ σ trace st, E.Arrives function callers live atCheck σ trace st → st.Realizes E.image
      E.setting.overflow trace (fun b =>
        E.Arrives function callers live (if b then atBody else κ .next) σ)
      (condition σ))
    (round : ∀ σ trace st, E.Arrives function callers live atBody σ trace st → st.Realizes E.image
      E.setting.overflow trace (E.Departs function callers live [] fun w =>
        if w = .break then κ .next else
      atCheck) (body σ)) (limit : Nat) (σ : Locals) (trace : List Event) (st : State)
    (here : E.Arrives function callers live atCheck σ trace st) :
    st.Realizes E.image E.setting.overflow trace (E.Departs function callers live [] κ)
      (iterate condition body limit σ) := by
  induction limit generalizing σ trace st with
  | zero => trivial
  | succ limit ih =>
    refine (test σ trace st here).chain fun b trace st there => ?_
    cases b with
    | false => exact .pure there
    | true =>
      refine (round σ trace st there).chain ?_
      rintro ⟨flow, σ'⟩ trace st left
      cases flow with
      | next | «continue» => exact ih σ' trace st left
      | «break» | «return» value => exact .pure left

theorem Action.executes_loop (sound : E.Sound) (test : Test) (inner : Action)
    {body : Locals → Outcome (Flow (Option Scalar) × Locals)} (limit : Nat) :
    let t := test.code E.frame s.nextLabel
    (∀ σ, t.Decides E (Place.Reached E.frame live) σ s.nextLabel (condition σ)) →
      (∀ σ, (inner.code E.frame t.names.nextLabel).Executes E live declared σ t.names.nextLabel
        (body σ)) →
      ((Action.loop test inner).code E.frame s).Executes E live [] σ s
        (iterate condition body limit σ) := by
  intro t h h' ρ κ a k callers trace lands ready
  let atBody : List Instr := (inner.code E.frame t.names.nextLabel).steps.map
    (instr fun w => (backTo s.label w).target ρ) ++ k
  let atCheck : List Instr := t.steps.map (instr fun b => (orNext t.names.label b).target ρ) ++
    Instr.label t.names.label :: atBody
  have lines : ((Action.loop test inner).code E.frame s).steps.map (instr ρ) ++ k
      = .jump (some s.label) :: Instr.label s.label :: atCheck := by
    simp only [Action.code, map_append, map_cons, map_instr_bind, append_assoc, cons_append]
    rfl
  rw [lines] at ready
  have tailCheck : Instr.label s.label :: atCheck <:+ _ := suffix_cons (.jump (some s.label)) _
  have tail : atCheck <:+ _ := .trans (suffix_cons ..) tailCheck
  have tailLabel : Instr.label t.names.label :: atBody <:+ _ := .trans (suffix_append ..) tail
  have tailBody : atBody <:+ _ := .trans (suffix_cons ..) tailLabel
  have there := ready.faces.label tailCheck
  have checks := lands_orNext lands (ready.faces.label tailLabel)
  have rounds := lands_backTo lands there
  refine .step (step_jump ready.faces.rest there) ?_
  refine departs_iterate atBody ?_ ?_ limit σ trace _ ⟨_, rfl, rfl, rfl, ready.stores.goto ..⟩
  · rintro σ trace _ ⟨a', rfl, function, rest, stores⟩
    have ready' : a'.Ready E live σ s.nextLabel.registers atCheck :=
      ⟨ready.low, stores, ready.faces.suffix tail function rest⟩
    refine (h σ _ _ a' _ callers trace (function ▸ checks) (ready'.reads sound)).imp ?_
    rintro b trace _ ⟨a'', rfl, moved, -⟩
    exact ⟨a'', rfl, moved.function.trans function, moved.rest,
      stores.moved sound.frame ready.low moved⟩
  · rintro σ trace _ ⟨a', rfl, function, rest, stores⟩
    have ready' : a'.Ready E live σ t.names.nextLabel.registers atBody :=
      ⟨Nat.le_trans ready.low (test.names_le E.frame s.nextLabel).1, stores,
        ready.faces.suffix tailBody function rest⟩
    exact (h' σ).enter rounds ready' function

/-! ### Blocks -/

/-- An action, and others behind it that are executed where it does not leave. -/
theorem Code.Executes.seq {o : Outcome (Flow (Option Scalar) × Locals)}
    {o' : Locals → Outcome (Flow (Option Scalar) × Locals)} (h : c.Executes E live declared σ s o)
    (h' : ∀ σ, c'.Executes E (declared ++ live) [] σ c.names.nextLabel (o' σ))
    (le : s.registers ≤ c.names.registers)
    (steps : r.steps = c.steps.map (Step.bind (Exit.connect .next c.names.label)) ++ .line
      (.label c.names.label) :: c'.steps) (goes : ∀ σ, next (.next, σ) = o' σ)
    (leaves : ∀ flow σ, flow ≠ .next → next (flow, σ) = pure (flow, σ)) :
    r.Executes E live [] σ s (o >>= next) := by
  intro ρ κ a k callers trace lands ready
  let atNext : List Instr := c'.steps.map (instr ρ) ++ k
  have lines : r.steps.map (instr ρ) ++ k
      = c.steps.map (instr fun w => (Exit.connect .next c.names.label w).target ρ) ++
        Instr.label c.names.label :: atNext := by
    rw [steps, map_append, map_instr_bind, append_assoc]
    rfl
  rw [lines] at ready
  have tail :=
    suffix_append (c.steps.map (instr fun w => (Exit.connect .next c.names.label w).target ρ))
    (Instr.label c.names.label :: atNext)
  have lands' : Lands a.function.body (fun w => (Exit.connect .next c.names.label w).target ρ)
      fun w => if w = .next then atNext else κ w := by
    intro w
    cases w with
    | next => exact ⟨c.names.label, rfl, ready.faces.label tail⟩
    | «break» => exact lands .break
    | «continue» => exact lands .continue
  -- Only where the first action falls through is the second one executed.
  refine (h _ _ a _ callers trace lands' ready).chain ?_
  rintro ⟨flow, σ'⟩ trace st left
  cases flow with
  | next =>
    obtain ⟨a', rfl, function, rest, stores⟩ := left
    have ready' : a'.Ready E (declared ++ live) σ' c.names.nextLabel.registers atNext :=
      ⟨Nat.le_trans ready.low le, stores,
        ready.faces.suffix (.trans ⟨[Instr.label c.names.label], rfl⟩ tail) function rest⟩
    rw [goes]
    refine ((h' σ').enter lands ready' function).imp fun r trace st post => ?_
    exact post.mono (subset_append_right ..) (subset_append_right ..)
  | «break» | «continue» | «return» value =>
    rw [leaves _ _ (by simp)]
    exact .pure left

theorem Code.Executes.last {o : Outcome (Flow (Option Scalar) × Locals)}
    (h : c.Executes E live declared σ s o) (leaves : ∀ flow σ, next (flow, σ) = pure (flow, σ)) :
    c.Executes E live [] σ s (o >>= next) := by
  intro ρ κ a k callers trace lands ready
  refine (h ρ κ a k callers trace lands ready).chain ?_
  rintro ⟨flow, σ'⟩ trace st left
  rw [leaves]
  exact .pure (left.mono (List.Subset.refl live) (subset_append_right ..))

/-- How control leaves by an exit. -/
def Leave.flow {ρ : Type} : Leave → Flow ρ
  | .next => .next
  | .break => .break
  | .continue => .continue

theorem executes_leave (w : Leave) (steps : c.steps = [.jump (.via w)]) :
    c.Executes E live [] σ s (pure (w.flow, σ)) := by
  intro ρ κ a k callers trace lands ready
  rw [steps] at ready
  obtain ⟨block, origin, jumped⟩ := step_exit lands ready.faces.rest
  cases w <;> exact .step jumped (.pure ⟨_, rfl, rfl, rfl, ready.stores.goto ..⟩)

/-! ### Returns -/

theorem step_ret_none (line : a.rest = .ret none :: k) :
    (running a callers trace).step M overflow = leave trace callers none := by
  rw [step_cons line]
  rfl

theorem step_ret_some {type : IrType} {operand : Operand} {d : Datum}
    (line : a.rest = .ret (some (type, operand)) :: k) (held : a.value operand = some d) :
    (running a callers trace).step M overflow = leave trace callers (some d) := by
  rw [step_cons line]
  show (a.value operand).bind _ = _
  rw [held]
  rfl

theorem executes_return (steps : c.steps = [.line (.ret none)]) :
    c.Executes E live [] σ s (pure (.return none, σ)) := by
  intro ρ κ a k callers trace lands ready
  rw [steps] at ready
  exact .pure ⟨none, .none, step_ret_none ready.faces.rest⟩

theorem Action.executes_return (sound : E.Sound) {value : Term}
    (h : (value.code E.frame s).Runs E (Place.Reached E.frame live) σ s o) :
    ((Action.return (some value)).code E.frame s).Executes E live [] σ s (do
      let v ← o
      return (.return (some v), σ)) := by
  intro ρ κ a k callers trace lands ready
  unfold Action.code at ready
  rw [map_append, map_instr_lift, append_assoc] at ready
  refine (h _ _ callers trace (ready.reads sound)).chain ?_
  rintro v trace _ ⟨a', d, rfl, moved, held, shown⟩
  exact .pure ⟨some d, .some shown, step_ret_some moved.rest held⟩

end Parts

/-! ## Actions -/

section Executes

variable {E : Scene} {Q : Signatures}

mutual

/-- The code of an action does what the action means. -/
theorem Action.executes (sound : E.Sound) {inLoop : Bool} {live : Live} :
    ∀ (x : Action) (s : NameSupply) (σ : Locals), x.Scoped E.frame E.limit Q inLoop live →
      E.image.Holds (x.code E.frame s).globals →
      (x.code E.frame s).Executes E live x.declared σ s (x.exec E.setting σ)
  | .declare _ _ none, s, σ, free, _ => Action.executes_declare_none sound free
  | .declare _ _ (some value), s, σ, inside, known =>
    Action.executes_declare_some sound (value.runs sound.answers s inside.2 known) inside.1
  | .assign _ value, s, σ, inside, known =>
    Action.executes_assign sound (value.runs sound.answers s inside.2.2 known) inside.1 inside.2.1
  | .drop value, s, σ, inside, known =>
    Action.executes_drop sound (value.runs sound.answers s inside known)
  | .run name arguments, s, σ, inside, known =>
    Action.executes_run sound name (arguments.runs sound.answers s inside.2 known) rfl fun _ => rfl
  | .check condition, s, σ, inside, known =>
    Action.executes_check sound (condition.decides sound.answers s inside known)
  | .when condition body, s, σ, inside, known => by
    obtain ⟨knownTest, knownBody⟩ := Image.holds_append.mp known
    exact Action.executes_when sound condition body
      (condition.decides sound.answers s inside.1 knownTest)
      (body.executes sound _ σ inside.2 knownBody)
  | .either condition thenBranch elseBranch, s, σ, inside, known => by
    obtain ⟨known, knownElse⟩ := Image.holds_append.mp known
    obtain ⟨knownTest, knownThen⟩ := Image.holds_append.mp known
    exact Action.executes_either sound condition thenBranch elseBranch
      (condition.decides sound.answers s inside.1 knownTest)
      (thenBranch.executes sound _ σ inside.2.1 knownThen)
      (elseBranch.executes sound _ σ inside.2.2 knownElse)
  | .loop condition body, s, σ, inside, known => by
    obtain ⟨knownTest, knownBody⟩ := Image.holds_append.mp known
    exact Action.executes_loop sound condition body E.setting.limit
      (fun σ => condition.decides sound.answers s.nextLabel inside.1 knownTest)
      (fun σ => body.executes sound _ σ inside.2 knownBody)
  | .break, s, σ, _, _ => executes_leave .break rfl
  | .continue, s, σ, _, _ => executes_leave .continue rfl
  | .return none, s, σ, _, _ => executes_return rfl
  | .return (some value), s, σ, inside, known =>
    Action.executes_return sound (value.runs sound.answers s inside.2 known)
  | .block .nil, s, σ, _, _ => executes_leave .next rfl
  | .block (.cons first rest), s, σ, inside, known =>
    Actions.executes sound (.cons first rest) Actions.noConfusion s σ inside known

theorem Actions.executes (sound : E.Sound) : ∀ (xs : Actions), xs ≠ .nil →
    ∀ (s : NameSupply) (σ : Locals) {inLoop : Bool}
    {live : Live}, xs.Scoped E.frame E.limit Q inLoop live →
      E.image.Holds (xs.code E.frame s).globals →
      (xs.code E.frame s).Executes E live [] σ s (xs.exec E.setting σ)
  | .nil, h, _, _, _, _, _, _ => absurd rfl h
  | .cons first .nil, _, s, σ, _, live, inside, known => by
    refine (first.executes sound s σ inside.1 known).last fun flow σ => ?_
    cases flow <;> rfl
  | .cons first (.cons second rest), _, s, σ, _, live, inside, known => by
    obtain ⟨knownFirst, knownRest⟩ := Image.holds_append.mp known
    refine (first.executes sound s σ inside.1 knownFirst).seq
      (fun σ =>
        Actions.executes sound (.cons second rest) Actions.noConfusion _ σ inside.2 knownRest)
      (first.names_le E.frame s) rfl (fun σ => rfl) fun flow σ other => ?_
    cases flow with
    | next => exact absurd rfl other
    | «break» | «continue» | «return» => rfl

end

end Executes

end Backpatch
