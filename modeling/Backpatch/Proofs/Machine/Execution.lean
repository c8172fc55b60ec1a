import Backpatch.Proofs.Semantics.Core

/-!
# Executing code

What the machine does where a computation has an outcome: `State.Realizes` says that it shows the
events, and either ends as the outcome says or reaches a state that fits the value. Computations are
chained as their outcomes are (`State.Realizes.bind`), and a line that is executed comes in front
(`State.Realizes.step`).

An activation that executes the code of a function keeps what the places of the function hold in its
registers and its memory (`Activation.Stores`). The code of an expression uses only registers that
are not in use yet (`Activation.Moved`), so it changes none of that.
-/

namespace Backpatch

open List

/-! ## Runs -/

namespace State

variable {M : Image} {overflow : Option Word} {s t u : State} {trace : List Event} {α β : Type}

theorem Steps.trans (first : s.Steps M overflow t) (rest : t.Steps M overflow u) :
    s.Steps M overflow u := by
  induction first with
  | refl => exact rest
  | head step _ ih => exact .head step (ih rest)

/-- What the machine does from a state where a computation has an outcome. The events before are
given, and what is to be said of the state that is reached, with the value and all events. -/
def Realizes (M : Image) (overflow : Option Word) (s : State) (trace : List Event)
    (Q : α → List Event → State → Prop) : Outcome α → Prop
  | .done events value => ∃ t, s.Steps M overflow t ∧ Q value (trace ++ events) t
  | .stopped events ending => s.Steps M overflow (.ended ending (trace ++ events))
  | .unfinished => True

namespace Realizes

variable {Q : α → List Event → State → Prop} {o : Outcome α}

theorem steps (first : s.Steps M overflow t) (rest : t.Realizes M overflow trace Q o) :
    s.Realizes M overflow trace Q o := by
  cases o with
  | done events value =>
    obtain ⟨u, steps, post⟩ := rest
    exact ⟨u, first.trans steps, post⟩
  | stopped events ending => exact first.trans rest
  | unfinished => trivial

theorem step (first : s.step M overflow = some t) (rest : t.Realizes M overflow trace Q o) :
    s.Realizes M overflow trace Q o :=
  steps (.head first (.refl t)) rest

protected theorem pure {value : α} (h : Q value trace s) :
    s.Realizes M overflow trace Q (pure value) :=
  ⟨s, .refl s, (List.append_nil trace).symm ▸ h⟩

theorem imp {Q' : α → List Event → State → Prop} (h : s.Realizes M overflow trace Q o)
    (sub : ∀ value trace t, Q value trace t → Q' value trace t) :
    s.Realizes M overflow trace Q' o := by
  cases o with
  | done events value =>
    obtain ⟨t, steps, post⟩ := h
    exact ⟨t, steps, sub _ _ _ post⟩
  | stopped events ending => exact h
  | unfinished => trivial

protected theorem bind {next : α → Outcome β} {Q' : β → List Event → State → Prop}
    (h : s.Realizes M overflow trace (fun value trace t => t.Realizes M overflow trace Q'
      (next value)) o) :
    s.Realizes M overflow trace Q' (o >>= next) := by
  cases o with
  | done events value =>
    obtain ⟨t, steps, rest⟩ := h
    show s.Realizes M overflow trace Q' ((next value).after events)
    cases outcome : next value with
    | done later value =>
      rw [outcome] at rest
      obtain ⟨u, steps', post⟩ := rest
      exact ⟨u, steps.trans steps', append_assoc .. ▸ post⟩
    | stopped later ending =>
      rw [outcome] at rest
      show s.Steps M overflow (.ended ending (trace ++ (events ++ later)))
      rw [← append_assoc]
      exact steps.trans rest
    | unfinished => trivial
  | stopped events ending => exact h
  | unfinished => trivial

theorem chain {next : α → Outcome β} {Q' : β → List Event → State → Prop}
    (h : s.Realizes M overflow trace Q o)
    (rest : ∀ value trace t, Q value trace t → t.Realizes M overflow trace Q' (next value)) :
    s.Realizes M overflow trace Q' (o >>= next) :=
  (h.imp rest).bind

end Realizes

end State

/-! ## Where control is -/

/-- The register has a number below this one, or none. -/
def Register.Below (n : Nat) (r : Register) : Prop := ∀ m, r = .temp m → m < n

variable {n : Nat}

theorem Register.Below.mono {n' : Nat} {r : Register} (h : r.Below n) (le : n ≤ n') : r.Below n' :=
  fun m eq => Nat.lt_of_lt_of_le (h m eq) le

theorem Register.below_temp {m : Nat} (h : m < n) : (Register.temp m).Below n :=
  fun _ eq => Register.temp.inj eq ▸ h

theorem Register.below_frame (n : Nat) : Register.frame.Below n :=
  fun _ eq => Register.noConfusion eq

theorem Register.below_argument (n index : Nat) : (Register.argument index).Below n :=
  fun _ eq => Register.noConfusion eq

theorem NameSupply.below_register (s : NameSupply) : s.register.Below s.nextRegister.registers :=
  Register.below_temp (Nat.lt_succ_self _)

namespace Activation

/-- The activation goes on with these lines of its function, where every label stands once. -/
structure Faces (a : Activation) (lines : List Instr) : Prop where
  rest : a.rest = lines
  inside : lines <:+ a.function.body
  labels : (labelsOf a.function.body).Nodup

/-- The activation goes on with the lines, and has used only registers from `n` on. -/
structure Moved (a : Activation) (n : Nat) (lines : List Instr) (a' : Activation) : Prop where
  function : a'.function = a.function
  rest : a'.rest = lines
  memory : a'.memory = a.memory
  values : ∀ r, r.Below n → a'.values r = a.values r

variable {a a' a'' : Activation} {n n' : Nat} {lines xs ys : List Instr}

theorem Moved.trans (h : a.Moved n xs a') (h' : a'.Moved n' ys a'') (le : n ≤ n') :
    a.Moved n ys a'' :=
  ⟨h'.function.trans h.function, h'.rest, h'.memory.trans h.memory,
    fun r below => (h'.values r (below.mono le)).trans (h.values r below)⟩

theorem moved_goto (a : Activation) (n : Nat) (lines : List Instr) (block origin : Option Label) :
    a.Moved n lines { a with rest := lines, block := block, origin := origin } :=
  ⟨rfl, rfl, rfl, fun _ _ => rfl⟩

theorem moved_set (a : Activation) {m : Nat} (le : n ≤ m) (d : Datum) (lines : List Instr) :
    a.Moved n lines ({ a with rest := lines }.set (.temp m) d) :=
  ⟨rfl, rfl, rfl, fun _ below =>
    if_neg fun eq => Nat.lt_irrefl _ (Nat.lt_of_lt_of_le (below m eq) le)⟩

theorem set_self (a : Activation) (r : Register) (d : Datum) : (a.set r d).values r = some d :=
  if_pos rfl

theorem Faces.suffix (h : a.Faces lines) (sub : ys <:+ lines) (function : a'.function = a.function)
    (rest : a'.rest = ys) : a'.Faces ys :=
  ⟨rest, function ▸ sub.trans h.inside, function ▸ h.labels⟩

variable {l : Label}

theorem linesAfter_of_suffix {rest : List Instr} (labels : (labelsOf lines).Nodup)
    (h : Instr.label l :: rest <:+ lines) : linesAfter l lines = some rest := by
  induction lines with
  | nil => exact absurd (suffix_nil.mp h) (cons_ne_nil _ _)
  | cons i lines ih =>
    rw [labelsOf_cons] at labels
    unfold linesAfter
    rcases suffix_cons_iff.mp h with same | later
    · obtain ⟨rfl, rfl⟩ := List.cons.inj same
      rw [if_pos rfl]
    · have other : i ≠ .label l := by
        rintro rfl
        have mem : l ∈ labelsOf lines := mem_filterMap.mpr ⟨_, later.subset mem_cons_self, rfl⟩
        exact (nodup_append.mp labels).2.2 l (mem_singleton_self l) l mem rfl
      rw [if_neg other]
      exact ih (nodup_append.mp labels).2.1 later

theorem Faces.label (h : a.Faces lines) (ahead : Instr.label l :: ys <:+ lines) :
    linesAfter l a.function.body = some ys :=
  linesAfter_of_suffix h.labels (ahead.trans h.inside)

end Activation

/-! ## Single lines -/

theorem Primitive.ofName?_name (primitive : Primitive) :
    Primitive.ofName? primitive.name = some primitive := by
  cases primitive <;> decide

namespace State

variable {M : Image} {overflow : Option Word} {a : Activation} {callers : List Caller}
  {trace : List Event} {k : List Instr}

theorem step_cons {i : Instr} (line : a.rest = i :: k) :
    (running a callers trace).step M overflow
      = execute M overflow { a with rest := k } callers trace i := by
  unfold step
  dsimp only
  rw [line]

variable {r block pointer : Register} {w x y : Word} {data : List Datum} {index : Int}
  {left right : Operand}
  {l : Label} {rest : List Instr} {primitive : Primitive} {events : List Event}

theorem step_load (line : a.rest = .load r pointer :: k)
    (address : a.values pointer = some (.address block index))
    (held : a.memory.read block index = some w) :
    (running a callers trace).step M overflow
      = some (running ({ a with rest := k }.set r (.word w)) callers trace) := by
  rw [step_cons line]
  unfold execute Activation.exec
  dsimp only
  rw [address]
  show Option.map _ (Option.map _ (a.memory.read block index)) = _
  rw [held]
  rfl

theorem step_compute {opcode : Opcode} (line : a.rest = .compute r opcode left right :: k)
    (hx : a.word left = some x) (hy : a.word right = some y)
    (result : opcode.apply overflow x y = some w) :
    (running a callers trace).step M overflow
      = some (running ({ a with rest := k }.set r (.word w)) callers trace) := by
  have hx : { a with rest := k }.word left = some x := hx
  have hy : { a with rest := k }.word right = some y := hy
  rw [step_cons line]
  unfold execute Activation.exec
  dsimp only
  rw [hx, hy]
  show Option.map _ (Option.map _ (opcode.apply overflow x y)) = _
  rw [result]
  rfl

theorem step_compare {predicate : Predicate} (line : a.rest = .compare r predicate left right :: k)
    (hx : a.word left = some x) (hy : a.word right = some y) :
    (running a callers trace).step M overflow
      = some (running ({ a with rest := k }.set r (.truth (predicate.holds x y))) callers
        trace) := by
  have hx : { a with rest := k }.word left = some x := hx
  have hy : { a with rest := k }.word right = some y := hy
  rw [step_cons line]
  unfold execute Activation.exec
  dsimp only
  rw [hx, hy]
  rfl

theorem step_phi {type : IrType} {first second : Operand} {firstFrom secondFrom : Label} {d : Datum}
    (line : a.rest = .phi r type first firstFrom second secondFrom :: k)
    (arrival : a.origin = some firstFrom ∧ a.value first = some d ∨ a.origin ≠ some firstFrom ∧
      a.origin = some secondFrom ∧ a.value second = some d) :
    (running a callers trace).step M overflow
      = some (running ({ a with rest := k }.set r d) callers trace) := by
  rw [step_cons line]
  show Option.map _ (if a.origin = some firstFrom then (a.value first).map _
    else if a.origin = some secondFrom then (a.value second).map _ else none) = _
  rcases arrival with ⟨origin, value⟩ | ⟨other, origin, value⟩
  · rw [if_pos origin, value]
    rfl
  · rw [if_neg other, if_pos origin, value]
    rfl

theorem step_stringAddress {length : Nat} {constant : GlobalName}
    (line : a.rest = .stringAddress r length constant :: k)
    (held : (M.constants constant).map List.length = some length) :
    (running a callers trace).step M overflow
      = some (running ({ a with rest := k }.set r (.text constant)) callers trace) := by
  rw [step_cons line]
  show Option.map _ (if (M.constants constant).map List.length = some length then some _ else none)
    = _
  rw [if_pos held]
  rfl

theorem step_slotAddress {size offset : Int} (line : a.rest = .slotAddress r size offset :: k)
    (frame : a.values .frame = some (.address .frame 0)) : (running a callers trace).step M overflow
      = some (running ({ a with rest := k }.set r (.address .frame offset)) callers trace) := by
  rw [step_cons line]
  unfold execute Activation.exec
  dsimp only
  rw [frame]
  show some (running (Activation.set _ r (.address .frame (0 + offset))) callers trace) = _
  rw [Int.zero_add]

theorem step_store {value : Operand} {m : Memory} (line : a.rest = .store value pointer :: k)
    (held : a.word value = some w) (address : a.values pointer = some (.address block index))
    (written : a.memory.write block index w = some m) :
    (running a callers trace).step M overflow
      = some (running { a with rest := k, memory := m } callers trace) := by
  have held : { a with rest := k }.word value = some w := held
  rw [step_cons line]
  unfold execute Activation.exec
  dsimp only
  rw [held, address]
  show Option.map _ (Option.map _ (a.memory.write block index w)) = _
  rw [written]
  rfl

theorem step_jump (line : a.rest = .jump (some l) :: k)
    (there : linesAfter l a.function.body = some rest) : (running a callers trace).step M overflow
      = some (running { a with rest := rest, block := some l, origin := a.block } callers
        trace) := by
  rw [step_cons line]
  show Option.map _ (Option.map _ (linesAfter l a.function.body)) = _
  rw [there]
  rfl

theorem step_branch {condition : Register} {onTrue onFalse : Target} {b : Bool}
    (line : a.rest = .branch condition onTrue onFalse :: k)
    (held : a.values condition = some (.truth b))
    (target : (if b then onTrue else onFalse) = some l)
    (there : linesAfter l a.function.body = some rest) :
    (running a callers trace).step M overflow
      = some (running { a with rest := rest, block := some l, origin := a.block } callers
        trace) := by
  rw [step_cons line]
  unfold execute
  dsimp only
  rw [held]
  show Option.map _ (Activation.goto _ (if b then onTrue else onFalse)) = _
  rw [target]
  show Option.map _ (Option.map _ (linesAfter l a.function.body)) = _
  rw [there]
  rfl

theorem step_call {result : Option (Register × IrType)} {callee : String}
    {arguments : List (IrType × Operand)} (line : a.rest = .call result callee arguments :: k)
    (given : (arguments.mapM fun argument => a.value argument.2) = some data) :
    (running a callers trace).step M overflow
      = call M { a with rest := k } callers trace (result.map Prod.fst) callee data := by
  rw [step_cons line]
  show ((arguments.mapM fun argument => a.value argument.2).bind _) = _
  rw [given]
  rfl

theorem call_primitive (performed : M.perform primitive data = some (events, none)) :
    call M a callers trace none primitive.name data
      = some (running a callers (trace ++ events)) := by
  unfold call
  rw [Primitive.ofName?_name]
  show (M.perform primitive data).map _ = _
  rw [performed]
  rfl

theorem call_primitive_ends (performed : M.perform primitive data = some (events, some w)) :
    call M a callers trace none primitive.name data
      = some (ended (.exited w) (trace ++ events)) := by
  unfold call
  rw [Primitive.ofName?_name]
  show (M.perform primitive data).map _ = _
  rw [performed]
  rfl

end State

/-! ## What places hold -/

namespace Memory

/-- The block has been reserved with this many cells. -/
def Sized (m : Memory) (block : Register) (size : Nat) : Prop :=
  ∃ cells, m block = some cells ∧ cells.length = size

theorem Sized.exists_write {m : Memory} {block : Register} {size : Nat} (h : m.Sized block size)
    {index : Int} (low : 0 ≤ index) (high : index < size) (w : Word) :
    ∃ m', m.write block index w = some m' ∧ ∀ b n, m.Sized b n → m'.Sized b n := by
  obtain ⟨cells, found, rfl⟩ := h
  unfold write
  rw [found]
  dsimp only
  rw [if_pos ⟨low, by omega⟩]
  refine ⟨_, rfl, fun b n sized => ?_⟩
  by_cases same : b = block
  · subst same
    obtain ⟨cells', found', rfl⟩ := sized
    obtain rfl := Option.some.inj (found.symm.trans found')
    exact ⟨_, if_pos rfl, length_set⟩
  · obtain ⟨cells', found', rfl⟩ := sized
    exact ⟨cells', (if_neg same).trans found', rfl⟩

end Memory

/-- Parameters with places of their own have these at different registers below the limit. -/
structure Frame.Sound (frame : Frame) (limit : Nat) : Prop where
  low : ∀ (index : Nat) slot, frame.slots[index]? = some (some slot) →
    ∃ n, n < limit ∧ slot = .temp n
  distinct : ∀ (i j : Nat) slot, frame.slots[i]? = some (some slot) →
    frame.slots[j]? = some (some slot) → i = j

/-- The register holds the address of a cell with this word in it. -/
def Activation.Points (a : Activation) (pointer : Register) (w : Word) : Prop :=
  ∃ block index, a.values pointer = some (.address block index) ∧ a.memory.read block index = some w

/-- What the binding stands for holds the word. A parameter without a place of its own is where the
caller has put it. -/
def Activation.Keeps (a : Activation) (frame : Frame) (w : Word) : Binding → Prop
  | .local pointer => a.Points pointer w
  | .parameter index =>
    match frame.slots[index]? with
    | some (some slot) => a.Points slot w
    | _ => a.values (.argument index) = some (.word w)

/-- The register with the address, if there is one, is below the limit. -/
def Binding.Low (frame : Frame) (limit : Nat) : Binding → Prop
  | .local pointer => pointer.Below limit
  | .parameter index => ∀ slot, frame.slots[index]? = some (some slot) → slot.Below limit

/-- The places hold these words. -/
def Activation.Holds (a : Activation) (frame : Frame) (limit : Nat) (P : Place → Prop)
    (σ : Locals) : Prop :=
  ∀ place, P place → place.binding.Low frame limit ∧ a.Keeps frame (σ place) place.binding

/-- The registers and the memory hold what the places of the function hold: the frame the variables
that are live, and the parameters that are assigned to a place of their own. -/
structure Activation.Stores (a : Activation) (frame : Frame) (limit : Nat) (live : Live)
    (σ : Locals) : Prop where
  reserved : 0 < frame.size → a.values .frame = some (.address .frame 0) ∧
    a.memory.Sized .frame frame.size.toNat
  locals : ∀ q ∈ live, q.1 < limit ∧ (q.2 : Int) < frame.size ∧
    a.values (.temp q.1) = some (.address .frame q.2) ∧
    a.memory.read .frame q.2 = some (σ (.variable q.1))
  apart : ∀ q ∈ live, ∀ q' ∈ live, q.2 = q'.2 → q = q'
  slots : ∀ (index : Nat) slot, frame.slots[index]? = some (some slot) →
    a.values slot = some (.address slot 0) ∧ a.memory.Sized slot 1 ∧
      a.memory.read slot 0 = some (σ (.parameter index))
  arguments : ∀ (index : Nat), frame.slots[index]? = some none →
    a.values (.argument index) = some (.word (σ (.parameter index)))

section Held

variable {a a' : Activation} {frame : Frame} {limit n : Nat} {σ : Locals} {lines : List Instr}

theorem Activation.Points.moved {pointer : Register} {w : Word} (h : a.Points pointer w)
    (moved : a.Moved n lines a') (low : pointer.Below n) : a'.Points pointer w := by
  obtain ⟨block, index, address, held⟩ := h
  exact ⟨block, index, (moved.values pointer low).trans address, moved.memory ▸ held⟩

/-- The code of an expression changes nothing of it. -/
theorem Activation.Holds.moved {P : Place → Prop} (h : a.Holds frame limit P σ) (le : limit ≤ n)
    (moved : a.Moved n lines a') : a'.Holds frame limit P σ := by
  intro place reached
  obtain ⟨low, keeps⟩ := h place reached
  refine ⟨low, ?_⟩
  cases place with
  | «variable» pointer => exact keeps.moved moved (low.mono le)
  | parameter index =>
    unfold Activation.Keeps Place.binding at keeps ⊢
    unfold Binding.Low Place.binding at low
    dsimp only at keeps low ⊢
    cases found : frame.slots[index]? with
    | none =>
      rw [found] at keeps
      exact (moved.values _ (Register.below_argument n index)).trans keeps
    | some slot =>
      rw [found] at keeps
      cases slot with
      | none => exact (moved.values _ (Register.below_argument n index)).trans keeps
      | some slot => exact keeps.moved moved ((low slot found).mono le)

end Held

namespace Activation.Stores

variable {a a' : Activation} {frame : Frame} {limit n : Nat} {live : Live} {σ : Locals}
  {lines : List Instr}

variable (h : a.Stores frame limit live σ)

include h

/-- The places that can be reached hold their words. -/
theorem holds (sound : frame.Sound limit) : a.Holds frame limit (Place.Reached frame live) σ := by
  intro place reached
  cases place with
  | «variable» pointer =>
    obtain ⟨offset, mem⟩ := reached
    obtain ⟨low, -, address, held⟩ := h.locals _ mem
    exact ⟨Register.below_temp low, _, _, address, held⟩
  | parameter index =>
    have low : ∀ slot, frame.slots[index]? = some (some slot) → slot.Below limit := by
      intro slot found
      obtain ⟨m, low, rfl⟩ := sound.low index slot found
      exact Register.below_temp low
    refine ⟨low, ?_⟩
    unfold Activation.Keeps Place.binding
    dsimp only
    obtain ⟨slot, found⟩ : ∃ slot, frame.slots[index]? = some slot :=
      ⟨_, getElem?_eq_getElem reached⟩
    rw [found]
    cases slot with
    | none => exact h.arguments index found
    | some slot =>
      obtain ⟨address, -, held⟩ := h.slots index slot found
      exact ⟨_, _, address, held⟩

/-- The code of an expression changes nothing of it. -/
theorem moved (sound : frame.Sound limit) (le : limit ≤ n) (moved : a.Moved n lines a') :
    a'.Stores frame limit live σ := by
  refine ⟨fun size => ?_, fun q mem => ?_, h.apart, fun index slot found => ?_,
    fun index found => ?_⟩
  · rw [moved.values .frame (Register.below_frame n), moved.memory]
    exact h.reserved size
  · obtain ⟨low, inside, address, held⟩ := h.locals q mem
    rw [moved.values (.temp q.1) (Register.below_temp (Nat.lt_of_lt_of_le low le)), moved.memory]
    exact ⟨low, inside, address, held⟩
  · obtain ⟨m, low, rfl⟩ := sound.low index slot found
    rw [moved.values (.temp m) (Register.below_temp (Nat.lt_of_lt_of_le low le)), moved.memory]
    exact h.slots index _ found
  · rw [moved.values (.argument index) (Register.below_argument n index)]
    exact h.arguments index found

theorem mono {live' : Live} (sub : live' ⊆ live) : a.Stores frame limit live' σ :=
  ⟨h.reserved, fun q mem => h.locals q (sub mem), fun q mem q' mem' =>
    h.apart q (sub mem) q' (sub mem'), h.slots, h.arguments⟩

theorem goto (rest : List Instr) (block origin : Option Label) :
    ({ a with rest := rest, block := block, origin := origin } : Activation).Stores frame
      limit live σ :=
  ⟨h.reserved, h.locals, h.apart, h.slots, h.arguments⟩

end Activation.Stores

end Backpatch
