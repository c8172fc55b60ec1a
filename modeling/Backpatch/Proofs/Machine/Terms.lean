import Backpatch.Proofs.Machine.Execution

/-!
# Executing the code of terms

The code of a term computes what the term means, and leaves it in the register that is its place
(`Term.runs`). The code of a test comes to a branch that leaves it by the exit that the test says,
whether or not it is known by then where the exits lead (`Test.waits`), and goes there if it is
(`Test.decides`). What a term calls is taken to behave as the meaning of calls says
(`Image.Answers`).

Each way to put code together is treated once, for codes of which it is known what they compute
(`TermCode.Runs`, `Code.Waits`). The terms and tests then follow their structure.
-/

namespace Backpatch

open Step List

/-! ## Values and calls -/

/-- What the machine has for a value. -/
def Scalar.Shown (M : Image) : Scalar → Datum → Prop
  | .word w, d => d = .word w
  | .text t, d => ∃ constant, d = .text constant ∧ M.text? constant = some t.toUTF8.toList

/-- What a call leads to: the caller goes on, with the result in the register for it. Where a result
is missing or not asked for, nothing is said. -/
def Activation.Resumes (M : Image) (a : Activation) (callers : List Caller)
    (result : Option Register) : Option Scalar → List Event → State → Prop
  | none, trace, st => result = none → st = .running a callers trace
  | some c, trace, st =>
    ∀ r, result = some r → ∃ d, c.Shown M d ∧ st = .running (a.set r d) callers trace

/-- Calls do what the setting says of them. -/
def Image.Answers (M : Image) (C : CoreSetting) : Prop :=
  ∀ name scalars data, List.Forall₂ (Scalar.Shown M) scalars data →
    ∀ a callers trace result (st : State),
    st.step M C.overflow = State.call M a callers trace result name data →
      st.Realizes M C.overflow trace (a.Resumes M callers result) (C.call name scalars)

/-- The constants are known with what is written in them. -/
def Image.Holds (M : Image) (globals : List Global) : Prop :=
  ∀ name length body, .constant name length body ∈ globals →
    M.constants name = Text.decode body.toList

variable {a a' : Activation} {E : Scene} {σ : Locals} {n n' : Nat} {ys lines : List Instr}
  {M : Image} {live : Live}

theorem Image.holds_append {xs ys : List Global} :
    M.Holds (xs ++ ys) ↔ M.Holds xs ∧ M.Holds ys := by
  refine ⟨fun h => ⟨fun _ _ _ mem => h _ _ _ (mem_append_left _ mem),
    fun _ _ _ mem => h _ _ _ (mem_append_right _ mem)⟩, fun h _ _ _ mem => ?_⟩
  rcases mem_append.mp mem with first | second
  · exact h.1 _ _ _ first
  · exact h.2 _ _ _ second

/-- A text is where its constant is. -/
theorem Image.Holds.text {constant : GlobalName} {text : String}
    (h : M.Holds [.constant constant (Text.constantLength text) (Text.constantBody text)]) :
    (M.constants constant).map List.length = some (Text.constantLength text) ∧
      (Scalar.text text).Shown M (.text constant) := by
  have bytes : M.constants constant = some (text.toUTF8.toList ++ [0]) := by
    rw [h _ _ _ (mem_singleton_self _), Text.decode_constantBody]
    rfl
  refine ⟨?_, constant, rfl, ?_⟩
  · rw [bytes]
    rfl
  · unfold Image.text?
    rw [bytes]
    dsimp only
    rw [getLast?_concat, if_pos rfl, dropLast_concat]

/-! ## Code that is executed -/

/-- What the code of a function is executed with: the image, the meaning of calls, and the layout of
the function. -/
structure Scene where
  image : Image
  setting : CoreSetting
  frame : Frame
  limit : Nat

/-- What the code comes to from the activation on. -/
abbrev Scene.Realizes {α : Type} (E : Scene) (a : Activation) (callers : List Caller)
    (trace : List Event) (Q : α → List Event → State → Prop) (o : Outcome α) : Prop :=
  (State.running a callers trace).Realizes E.image E.setting.overflow trace Q o

structure Scene.Sound (E : Scene) : Prop where
  answers : E.image.Answers E.setting
  frame : E.frame.Sound E.limit

/-- The activation goes on with the lines, holds what the places hold, and uses registers from `n`
on. -/
structure Activation.Ready (a : Activation) (E : Scene) (live : Live) (σ : Locals) (n : Nat)
    (lines : List Instr) : Prop where
  low : E.limit ≤ n
  stores : a.Stores E.frame E.limit live σ
  faces : a.Faces lines

theorem Activation.Ready.moved (h : a.Ready E live σ n lines) (sound : E.Sound)
    (moved : a.Moved n ys a') (sub : ys <:+ lines) (le : n ≤ n') : a'.Ready E live σ n' ys :=
  ⟨Nat.le_trans h.low le, h.stores.moved sound.frame h.low moved,
    h.faces.suffix sub moved.function moved.rest⟩

/-- The activation goes on with the lines, the places hold these words, and registers are used from
`n` on. -/
structure Activation.Reads (a : Activation) (E : Scene) (P : Place → Prop) (σ : Locals) (n : Nat)
    (lines : List Instr) : Prop where
  low : E.limit ≤ n
  holds : a.Holds E.frame E.limit P σ
  faces : a.Faces lines

theorem Activation.Reads.moved {P : Place → Prop} (h : a.Reads E P σ n lines)
    (moved : a.Moved n ys a') (sub : ys <:+ lines) (le : n ≤ n') : a'.Reads E P σ n' ys :=
  ⟨Nat.le_trans h.low le, h.holds.moved h.low moved, h.faces.suffix sub moved.function moved.rest⟩

theorem Activation.Ready.reads (h : a.Ready E live σ n lines) (sound : E.Sound) :
    a.Reads E (Place.Reached E.frame live) σ n lines :=
  ⟨h.low, h.stores.holds sound.frame, h.faces⟩

/-- Each exit leads to a label, and from there on to the lines. -/
def Lands {W : Type} (body : List Instr) (ρ : W → Target) (κ : W → List Instr) : Prop :=
  ∀ w, ∃ l, ρ w = some l ∧ linesAfter l body = some (κ w)

/-- The value is in the register, and control is at the lines. -/
def Activation.Delivers (a : Activation) (M : Image) (n : Nat) (lines : List Instr)
    (callers : List Caller)
    (place : Register) (c : Scalar) (trace : List Event) (st : State) : Prop :=
  ∃ a' d, st = .running a' callers trace ∧ a.Moved n lines a' ∧
    a'.values place = some d ∧ c.Shown M d

/-- The line goes where the exit leads. -/
def Step.Takes {W : Type} (a : Activation) (e : Exit W) : Step W → Prop
  | .line _ => False
  | .jump exit => exit = e
  | .branch condition onTrue onFalse =>
    ∃ b, a.values condition = some (.truth b) ∧ (if b then onTrue else onFalse) = e

/-- Control is at a line of the code that leaves it by the exit. -/
def Activation.Stops {W : Type} (a : Activation) (n : Nat) (callers : List Caller)
    (steps : List (Step W))
    (ρ : W → Target) (k : List Instr) (w : W) (trace : List Event) (st : State) : Prop :=
  ∃ a' before step after, st = .running a' callers trace ∧ steps = before ++ step :: after ∧
    a.Moved n ((step :: after).map (instr ρ) ++ k) a' ∧ step.Takes a' (.via w)

/-- Control has gone to the exit. -/
def Activation.Turns (a : Activation) (n : Nat) (callers : List Caller) (ρ : Bool → Target)
    (κ : Bool → List Instr) (b : Bool) (trace : List Event) (st : State) : Prop :=
  ∃ a', st = .running a' callers trace ∧ a.Moved n (κ b) a' ∧ a'.block = ρ b

/-- The values of arguments are in their registers, and control is at the lines. -/
def Activation.Passes (a : Activation) (M : Image) (n : Nat) (lines : List Instr)
    (callers : List Caller)
    (operands : List (IrType × Operand)) (cs : List Scalar) (trace : List Event) (st : State) :
    Prop :=
  ∃ a' data, st = .running a' callers trace ∧ a.Moved n lines a' ∧
    (operands.mapM fun operand => a'.value operand.2) = some data ∧
      List.Forall₂ (Scalar.Shown M) cs data

section Definitions

variable (E : Scene) (P : Place → Prop) (σ : Locals) (s : NameSupply)

/-- The code, with the names that are free before it, computes the outcome. -/
def TermCode.Runs (c : TermCode) (o : Outcome Scalar) : Prop :=
  ∀ a k callers trace, a.Reads E P σ s.registers (c.steps.map (instr noExits) ++ k) →
    (State.running a callers trace).Realizes E.image E.setting.overflow trace
      (a.Delivers E.image s.registers k callers c.place) o

/-- The code comes to where it leaves by the exit that the outcome says. The exits may be open. -/
def Code.Waits (c : Code Bool) (o : Outcome Bool) : Prop :=
  ∀ ρ a k callers trace, a.Reads E P σ s.registers (c.steps.map (instr ρ) ++ k) →
    (State.running a callers trace).Realizes E.image E.setting.overflow trace
      (a.Stops s.registers callers c.steps ρ k) o

/-- The code goes to the exit that the outcome says. -/
def Code.Decides (c : Code Bool) (o : Outcome Bool) : Prop :=
  ∀ ρ κ a k callers trace, Lands a.function.body ρ κ →
    a.Reads E P σ s.registers (c.steps.map (instr ρ) ++ k) →
    (State.running a callers trace).Realizes E.image E.setting.overflow trace
      (a.Turns s.registers callers ρ κ) o

def ArgumentsCode.Runs (c : ArgumentsCode) (o : Outcome (List Scalar)) : Prop :=
  ∀ a k callers trace, a.Reads E P σ s.registers (c.steps.map (instr noExits) ++ k) →
    (State.running a callers trace).Realizes E.image E.setting.overflow trace
      (a.Passes E.image s.registers k callers c.operands) o

end Definitions

/-! ## Parts -/

section Names

variable (frame : Frame)

theorem Term.names_le (t : Term) (s : NameSupply) :
    s.registers ≤ (t.code frame s).names.registers ∧ s.labels ≤ (t.code frame s).names.labels :=
  ⟨(Reading.results_of_read (t.read_code s [] noExits)).1,
    (Reading.labels_of_read (t.read_code s [] noExits)).1⟩

theorem Test.names_le (t : Test) (s : NameSupply) :
    s.registers ≤ (t.code frame s).names.registers ∧ s.labels ≤ (t.code frame s).names.labels :=
  ⟨(Reading.results_of_read (t.read_code s [] fun _ => none)).1,
    (Reading.labels_of_read (t.read_code s [] fun _ => none)).1⟩

theorem Arguments.names_le (as : Arguments) (s : NameSupply) :
    s.registers ≤ (as.code frame s).names.registers :=
  (Reading.results_of_read (as.read_code s [] noExits)).1

theorem Register.InUse.below {r : Register} {n : Nat} (h : r.InUse n) : r.Below n := by
  rintro m rfl
  exact h

end Names

namespace State.Realizes

variable {M : Image} {overflow : Option Word} {s : State} {trace : List Event} {α : Type}
  {Q : α → List Event → State → Prop}

theorem ofOption {o : Option α} (h : ∀ value, o = some value → Q value trace s) :
    s.Realizes M overflow trace Q (.ofOption o) := by
  cases o with
  | none => trivial
  | some value => exact .pure (h value rfl)

theorem number {Q : Word → List Event → State → Prop} {c : Scalar}
    (h : ∀ w, c = .word w → Q w trace s) : s.Realizes M overflow trace Q c.number := by
  cases c with
  | word w => exact .pure (h w rfl)
  | text text => trivial

end State.Realizes

section Parts

open State

variable {E : Scene} {P : Place → Prop} {σ : Locals} {s : NameSupply} {a : Activation} {n m : Nat}
  {k : List Instr} {callers : List Caller} {trace : List Event}

variable {c c' : TermCode} {o o' : Outcome Scalar} {w x y : Word} {M : Image} {r t : Code Bool}
  {overflow : Option Word} {lines behind : List Instr} {W β : Type} {d : Datum}
  {a' : Activation} {n' : Nat}
  {st : State} {ρ : Bool → Target} {left first right second : Operand} {type : IrType}
  {join firstFrom secondFrom : Label} {operator : Arithmetic}

theorem realizes_set {c : Scalar} (le : n ≤ m) (shown : c.Shown M d)
    (first : (running a callers trace).step M overflow
      = some (running ({ a with rest := k }.set (.temp m) d) callers trace)) :
    (running a callers trace).Realizes M overflow trace
      (a.Delivers M n k callers (.temp m)) (pure c) :=
  .step first (.pure ⟨_, d, rfl, Activation.moved_set a le d k, Activation.set_self .., shown⟩)

theorem realizes_after {place : Register} (moved : a.Moved n lines a') (le : n ≤ n')
    (h : st.Realizes M overflow trace (a'.Delivers M n' k callers place) o) :
    st.Realizes M overflow trace (a.Delivers M n k callers place) o := by
  refine h.imp ?_
  rintro c trace _ ⟨a'', d, rfl, moved', held, shown⟩
  exact ⟨a'', d, rfl, moved.trans moved' le, held, shown⟩

/-- A term that is a number, and what is done with the number. -/
theorem TermCode.Runs.word {Q : β → List Event → State → Prop} {next : Word → Outcome β}
    (h : c.Runs E P σ s o) (ready : a.Reads E P σ s.registers (c.steps.map (instr noExits) ++ k))
    (rest : ∀ x trace a', a.Moved s.registers k a' → a'.values c.place = some (.word x) →
      E.Realizes a' callers trace Q (next x)) :
    E.Realizes a callers trace Q (o >>= fun v => v.number >>= next) := by
  refine (h a _ callers trace ready).chain ?_
  rintro v trace _ ⟨a', d, rfl, moved, held, shown⟩
  refine .bind (.number fun x eq => ?_)
  subst eq
  cases shown
  exact rest x trace a' moved held

theorem runs_load {pointer block : Register} {index : Int}
    (line : a.rest = .load s.register pointer :: k)
    (address : a.values pointer = some (.address block index))
    (held : a.memory.read block index = some w) :
    E.Realizes a callers trace (a.Delivers E.image s.registers k callers s.register)
      (pure (.word w)) :=
  realizes_set (Nat.le_refl _) rfl (step_load line address held)

/-- What a place holds is read from it. -/
theorem Place.runs {place : Place} (reached : P place) :
    (place.code E.frame s).Runs E P σ s (pure (.word (σ place))) := by
  intro a k callers trace ready
  obtain ⟨-, keeps⟩ := ready.holds place reached
  cases place with
  | «variable» pointer =>
    obtain ⟨block, index, address, held⟩ := keeps
    exact runs_load ready.faces.rest address held
  | parameter index =>
    have skipped (line : a.rest = k) : a.Moved s.registers k a := ⟨rfl, line, rfl, fun _ _ => rfl⟩
    unfold Place.code at ready ⊢
    unfold Activation.Keeps Place.binding at keeps
    dsimp only at ready keeps ⊢
    cases found : E.frame.slots[index]? with
    | none =>
      rw [found] at ready keeps
      exact .pure ⟨a, _, rfl, skipped ready.faces.rest, keeps, rfl⟩
    | some slot =>
      rw [found] at ready keeps
      cases slot with
      | none => exact .pure ⟨a, _, rfl, skipped ready.faces.rest, keeps, rfl⟩
      | some slot =>
        obtain ⟨block, index, address, held⟩ := keeps
        exact runs_load ready.faces.rest address held

/-! ### Exits -/

theorem Step.Takes.bind {V : Type} {f : V → Exit W} {e : Exit V} {step : Step V}
    (h : step.Takes a e) : (step.bind f).Takes a (e.bind f) := by
  cases step with
  | line i => exact h.elim
  | jump exit => exact congrArg (Exit.bind f) h
  | branch condition onTrue onFalse =>
    obtain ⟨b, held, eq⟩ := h
    refine ⟨b, held, ?_⟩
    cases b <;> exact congrArg (Exit.bind f) eq

/-- A line that goes where a label is. -/
theorem step_takes {step : Step W} {e : Exit W} {ρ : W → Target} {l : Label} (h : step.Takes a e)
    (line : a.rest = step.instr ρ :: k) (target : e.target ρ = some l)
    (there : linesAfter l a.function.body = some lines) : (running a callers trace).step M overflow
      = some (running { a with rest := lines, block := some l, origin := a.block } callers
        trace) := by
  cases step with
  | line i => exact h.elim
  | jump exit =>
    obtain rfl : exit = e := h
    have line : a.rest = .jump (exit.target ρ) :: k := line
    rw [target] at line
    exact step_jump line there
  | branch condition onTrue onFalse =>
    obtain ⟨b, held, rfl⟩ := h
    refine step_branch line held ?_ there
    rw [← target]
    cases b <;> rfl

section Stops

variable {V W : Type} {steps r : List (Step W)} {ρ : W → Target} {w : W} {st : State}

variable {lines : List Instr}

theorem Activation.Stops.after (moved : a.Moved n lines a') (le : n ≤ n')
    (h : a'.Stops n' callers steps ρ k w trace st) : a.Stops n callers steps ρ k w trace st := by
  obtain ⟨a'', before, step, after, rfl, split, moved', takes⟩ := h
  exact ⟨a'', before, step, after, rfl, split, moved.trans moved' le, takes⟩

theorem Activation.Stops.within {pre post : List (Step W)}
    (h : a.Stops n callers steps ρ (post.map (instr ρ) ++ k) w trace st)
    (whole : r = pre ++ steps ++ post) :
    a.Stops n callers r ρ k w trace st := by
  obtain ⟨a', before, step, after, rfl, rfl, moved, takes⟩ := h
  refine ⟨a', pre ++ before, step, after ++ post, rfl, ?_, ?_, takes⟩
  · rw [whole]
    simp only [append_assoc, cons_append]
  · rw [← cons_append, map_append, append_assoc]
    exact moved

/-- An exit that is passed on. -/
theorem Activation.Stops.bind {steps : List (Step V)} {f : V → Exit W} {v : V}
    (h : a.Stops n callers steps (fun v => (f v).target ρ) k v trace st) (exit : f v = .via w) :
    a.Stops n callers (steps.map (Step.bind f)) ρ k w trace st := by
  obtain ⟨a', before, step, after, rfl, rfl, moved, takes⟩ := h
  refine ⟨a', before.map (Step.bind f), step.bind f, after.map (Step.bind f), rfl, ?_, ?_, ?_⟩
  · rw [map_append, map_cons]
  · rw [← map_cons, map_instr_bind]
    exact moved
  · rw [← exit]
    exact takes.bind

/-- An exit that leads to a label. -/
theorem Activation.Stops.goto {l : Label} {Q : β → List Event → State → Prop} {o : Outcome β}
    (h : a.Stops n callers steps ρ k w trace st) (target : ρ w = some l)
    (there : linesAfter l a.function.body = some lines)
    (rest : ∀ a', a.Moved n lines a' → a'.block = some l →
      (running a' callers trace).Realizes M overflow trace Q o) :
    st.Realizes M overflow trace Q o := by
  obtain ⟨a', before, step, after, rfl, rfl, moved, takes⟩ := h
  have jumped := a'.moved_goto n lines (some l) a'.block
  refine .step (step_takes takes moved.rest target (moved.function ▸ there)) (rest _ ?_ rfl)
  exact moved.trans jumped (Nat.le_refl n)

end Stops

/-- Where the exits lead to labels, control goes there. -/
theorem Code.Waits.decides {c : Code Bool} {o : Outcome Bool} (h : c.Waits E P σ s o) :
    c.Decides E P σ s o := by
  intro ρ κ a k callers trace lands ready
  rw [← bind_pure o]
  refine (h ρ a k callers trace ready).chain fun b trace st stops => ?_
  obtain ⟨l, target, there⟩ := lands b
  exact stops.goto target there fun a' moved block =>
    .pure ⟨a', rfl, moved, block.trans target.symm⟩

/-- A comparison, and a branch on what comes of it. -/
theorem stops_compare {predicate : Predicate} {before steps : List (Step Bool)}
    (le : n ≤ s.registers)
    (split : steps = before ++ [.line (.compare s.register predicate left right),
      branchOn s.register])
    (line : a.rest = .compare s.register predicate left right :: (branchOn s.register).instr ρ :: k)
    (hx : a.word left = some x) (hy : a.word right = some y) :
    E.Realizes a callers trace (a.Stops n callers steps ρ k)
      (pure (predicate.holds x y)) := by
  refine .step (step_compare line hx hy) (.pure ?_)
  have moved :=
    Activation.moved_set a le (.truth (predicate.holds x y)) ((branchOn s.register).instr ρ :: k)
  refine ⟨_, before ++ [.line (.compare s.register predicate left right)], branchOn s.register, [],
    rfl, ?_, moved, _, Activation.set_self .., ?_⟩
  · rw [split, append_assoc]
    rfl
  · cases predicate.holds x y <;> rfl

theorem Activation.word_register {r : Register} (h : a.values r = some (.word w)) :
    a.word (.register r) = some w := by
  have value : a.value (.register r) = some (.word w) := h
  unfold Activation.word
  rw [value]

/-- A number decides by whether it is zero. -/
theorem TermCode.Runs.nonzero (h : c.Runs E P σ s o) (le : s.registers ≤ c.names.registers) :
    c.nonzero.Waits E P σ s (o >>= fun v => v.number >>= fun w => pure (w != 0)) := by
  intro ρ a k callers trace ready
  have lines : c.nonzero.steps.map (instr ρ) ++ k = c.steps.map (instr noExits) ++
      (.compare c.names.register .ne (.register c.place) (.number 0) ::
        (branchOn c.names.register).instr ρ :: k) := by
    unfold TermCode.nonzero
    rw [map_append, map_instr_lift, append_assoc]
    rfl
  rw [lines] at ready
  refine h.word ready fun w trace a' moved held => ?_
  have split : c.nonzero.steps = c.steps.map Step.lift ++
      [.line (.compare c.names.register .ne (.register c.place) (.number 0)),
        branchOn c.names.register] := rfl
  refine (stops_compare le split moved.rest (Activation.word_register held) rfl).imp ?_
  exact fun b trace st post => post.after moved (Nat.le_refl _)

/-! ### Joins -/

/-- Control goes to the join, and the value for the block that it comes from is taken. -/
theorem realizes_join {c : Scalar} (line : a.rest = .jump (some join) :: behind)
    (there : linesAfter join a.function.body =
      some (.phi s.register type first firstFrom second secondFrom :: k))
    (arrival : a.block = some firstFrom ∧ a.value first = some d ∨ a.block ≠ some firstFrom ∧
      a.block = some secondFrom ∧ a.value second = some d) (le : n ≤ s.registers)
      (shown : c.Shown M d) :
    (running a callers trace).Realizes M overflow trace (a.Delivers M n k callers s.register)
      (pure c) := by
  have jumped := a.moved_goto n (.phi s.register type first firstFrom second secondFrom :: k)
    (some join) a.block
  refine .step (step_jump line there) (realizes_after jumped (Nat.le_refl n) ?_)
  exact realizes_set le shown (step_phi rfl arrival)

theorem NameSupply.label_ne {s' : NameSupply} (h : s.labels < s'.labels) :
    some s'.label ≠ some s.label := by
  intro eq
  exact Nat.ne_of_gt h (Label.numbered.inj (Option.some.inj eq))

/-- A test whose exits lead to two labels behind it, and what is done at each of them. -/
theorem Code.Decides.fork {o : Outcome Bool} {next : Bool → Outcome β} {ρ : W → Target}
    {Q : β → List Event → State → Prop} {onTrue onFalse : Label} {between : List Instr}
    (h : t.Decides E P σ s o) (ready : a.Reads E P σ s.registers lines)
    (shape : lines = t.steps.map (instr fun b => (toLabels onTrue onFalse b).target ρ) ++
      Instr.label onTrue :: (between ++ Instr.label onFalse :: behind))
    (ifTrue : ∀ trace a', between ++ Instr.label onFalse :: behind <:+ lines →
      a.Moved s.registers (between ++ Instr.label onFalse :: behind) a' → a'.block = some onTrue →
      E.Realizes a' callers trace Q (next true))
    (ifFalse : ∀ trace a', behind <:+ lines → a.Moved s.registers behind a' →
      a'.block = some onFalse → E.Realizes a' callers trace Q (next false)) :
    E.Realizes a callers trace Q (o >>= next) := by
  subst shape
  have atTrue := suffix_append
    (t.steps.map (instr fun b => (toLabels onTrue onFalse b).target ρ))
    (Instr.label onTrue :: (between ++ Instr.label onFalse :: behind))
  have atFalse : Instr.label onFalse :: behind <:+ _ :=
    .trans ⟨Instr.label onTrue :: between, rfl⟩ atTrue
  have lands : Lands a.function.body (fun b => (toLabels onTrue onFalse b).target ρ)
      fun b => if b then between ++ Instr.label onFalse :: behind else behind := by
    intro b
    cases b with
    | true => exact ⟨onTrue, rfl, ready.faces.label atTrue⟩
    | false => exact ⟨onFalse, rfl, ready.faces.label atFalse⟩
  refine (h _ _ a _ callers trace lands ready).chain ?_
  rintro b trace _ ⟨a', rfl, moved, block⟩
  cases b with
  | true => exact ifTrue trace a' (.trans (suffix_cons ..) atTrue) moved block
  | false => exact ifFalse trace a' (.trans (suffix_cons ..) atFalse) moved block

/-- A test that is made a number. -/
theorem Code.Decides.materialize {o : Outcome Bool} (h : t.Decides E P σ s o)
    (le : s.registers ≤ t.names.registers) :
    t.materialize.Runs E P σ s (o >>= fun b => pure (.ofBool b)) := by
  intro a k callers trace ready
  let onTrue := t.names.label
  let onFalse := t.names.nextLabel.label
  let join := t.names.nextLabel.nextLabel.label
  let atJoin : List Instr := .phi t.names.register .i32 (.number 1) onTrue (.number 0) onFalse :: k
  let atFalse : List Instr := .jump (some join) :: Instr.label join :: atJoin
  have lines : t.materialize.steps.map (instr noExits) ++ k
      = t.steps.map (instr fun b => (toLabels onTrue onFalse b).target noExits) ++
        Instr.label onTrue :: ([.jump (some join)] ++ Instr.label onFalse :: atFalse) := by
    unfold Code.materialize
    rw [map_append, map_instr_bind, append_assoc]
    rfl
  refine h.fork ready lines (fun trace a' sub moved block => ?_) fun trace a' sub moved block => ?_
  · have there : linesAfter join a'.function.body = some atJoin := moved.function ▸
      ready.faces.label (.trans ⟨[.jump (some join), Instr.label onFalse, .jump (some join)], rfl⟩
        sub)
    exact realizes_after moved (Nat.le_refl _)
      (realizes_join moved.rest there (.inl ⟨block, rfl⟩) le rfl)
  · have there : linesAfter join a'.function.body = some atJoin :=
      moved.function ▸ ready.faces.label (.trans ⟨[.jump (some join)], rfl⟩ sub)
    have other : a'.block ≠ some onTrue := block ▸ NameSupply.label_ne (Nat.lt_succ_self _)
    exact realizes_after moved (Nat.le_refl _)
      (realizes_join moved.rest there (.inr ⟨other, block, rfl⟩) le rfl)

/-! ### Arithmetic -/

theorem realizes_compute {opcode : Opcode}
    (line : a.rest = .compute s.register opcode left right :: k)
    (le : n ≤ s.registers) (hx : a.word left = some x) (hy : a.word right = some y)
    (result : opcode.apply E.setting.overflow x y = some w) :
    E.Realizes a callers trace (a.Delivers E.image n k callers s.register) (pure (.word w)) :=
  realizes_set le rfl (step_compute line hx hy result)

theorem realizes_cut {value : Register} (le : n ≤ s.registers)
    (held : a.values value = some (.word x))
    (line : a.rest = (cutCode value s).steps.map (instr noExits) ++ k) :
    E.Realizes a callers trace (a.Delivers E.image n k callers (cutCode value s).place)
      (pure (.word (x &&& 255))) :=
  realizes_compute line le (Activation.word_register held) rfl rfl

theorem realizes_computeCode {type : Ty} {left right : Register} (le : n ≤ s.registers)
    (hx : a.values left = some (.word x)) (hy : a.values right = some (.word y))
    (line : a.rest = (computeCode operator type left right s).steps.map (instr noExits) ++ k) :
    E.Realizes a callers trace (a.Delivers E.image n k callers
      (computeCode operator type left right s).place)
      (operator.compute E.setting.overflow type x y >>= fun w => pure (.word w)) := by
  unfold Arithmetic.compute
  rw [bind_assoc]
  refine .bind (.ofOption fun w result => ?_)
  rw [pure_bind]
  have left := Activation.word_register hx
  have right := Activation.word_register hy
  unfold computeCode at line ⊢
  dsimp only at line ⊢
  split at line
  · rename_i byte
    rw [if_pos byte, if_pos byte]
    have moved :=
      a.moved_set le (.word w) ((cutCode s.register s.nextRegister).steps.map (instr noExits) ++ k)
    refine .step (step_compute line left right result) (realizes_after moved (Nat.le_refl n) ?_)
    exact realizes_cut (Nat.le_succ_of_le le) (Activation.set_self ..) rfl
  · rename_i wide
    rw [if_neg wide, if_neg wide]
    exact realizes_compute line le left right result

variable {Q : β → List Event → State → Prop}

/-- A division by zero ends the run, and control goes on behind the guard otherwise. -/
theorem realizes_guardCode {divisor : Register} {o : Outcome β}
    (faces : a.Faces ((guardCode divisor s).steps.map (instr noExits) ++ k)) (le : n ≤ s.registers)
    (held : a.values divisor = some (.word y))
    (rest : y ≠ 0 → ∀ a', a.Moved n k a' → E.Realizes a' callers trace Q o) :
    E.Realizes a callers trace Q
      (if y = 0 then .stopped [.text zeroDivisionMessage] (.exited 0) else o) := by
  let error := s.nextRegister.label
  let divide := s.nextRegister.nextLabel.label
  let atError : List Instr :=
    .call none zeroDivisionHandler [] :: .jump (some divide) :: Instr.label divide :: k
  have ahead : Instr.label error :: atError <:+ (guardCode divisor s).steps.map
      (instr noExits) ++ k :=
    ⟨[.compare s.register .eq (.register divisor) (.number 0),
      .branch s.register (some error) (some divide)], rfl⟩
  have atDivide : linesAfter divide a.function.body = some k :=
    faces.label
      (.trans ⟨[Instr.label error, .call none zeroDivisionHandler [], .jump (some divide)], rfl⟩
      ahead)
  refine .step (step_compare faces.rest (Activation.word_register held) rfl) ?_
  show State.Realizes _ _ (running (Activation.set _ _ (.truth (y == 0))) _ _) _ _ _
  by_cases zero : y = 0
  · rw [if_pos zero, beq_iff_eq.mpr zero]
    refine .step (step_branch rfl (Activation.set_self ..) rfl (faces.label ahead))
      (.head ?_ (.refl _))
    exact (step_call rfl rfl).trans (call_primitive_ends
      (Eq.refl (Image.perform _ .zeroDivision [])))
  · rw [if_neg zero, beq_eq_false_iff_ne.mpr zero]
    refine .step (step_branch rfl (Activation.set_self ..) rfl atDivide) (rest zero _ ?_)
    have moved := a.moved_set le (.truth false) k
    exact ⟨moved.function, rfl, moved.memory, moved.values⟩

theorem realizes_arithmeticCode {type : Ty} {left right : Register}
    (faces : a.Faces ((arithmeticCode operator type left right s).steps.map (instr noExits) ++ k))
    (leftBelow : left.Below n) (rightBelow : right.Below n) (le : n ≤ s.registers)
    (hx : a.values left = some (.word x)) (hy : a.values right = some (.word y)) :
    E.Realizes a callers trace (a.Delivers E.image n k callers
      (arithmeticCode operator type left right s).place)
      (operator.coreMeaning E.setting.overflow type x y >>= fun w => pure (.word w)) := by
  unfold Arithmetic.coreMeaning
  unfold arithmeticCode at faces ⊢
  dsimp only at faces ⊢
  by_cases division : operator = .div
  · rw [if_pos division] at faces ⊢
    rw [map_append, append_assoc] at faces
    have outcome :
          ((if operator = .div ∧ y = 0 then .stopped [.text zeroDivisionMessage] (.exited 0)
          else operator.compute E.setting.overflow type x y) >>= fun w => pure (Scalar.word w))
        = if y = 0 then .stopped [.text zeroDivisionMessage] (.exited 0)
          else operator.compute E.setting.overflow type x y >>= fun w => pure (.word w) := by
      by_cases zero : y = 0
      · rw [if_pos ⟨division, zero⟩, if_pos zero]
        rfl
      · rw [if_neg fun h => zero h.2, if_neg zero]
    rw [outcome]
    refine realizes_guardCode faces le hy fun _ a' moved => ?_
    have hx' := (moved.values left leftBelow).trans hx
    have hy' := (moved.values right rightBelow).trans hy
    exact realizes_after moved (Nat.le_refl n)
      (realizes_computeCode (Nat.le_succ_of_le le) hx' hy' moved.rest)
  · rw [if_neg division] at faces ⊢
    rw [if_neg fun h => division h.1]
    exact realizes_computeCode le hx hy faces.rest

/-- Two terms, one after the other, that are numbers. -/
theorem TermCode.Runs.both {next : Word → Word → Outcome β} (h : c.Runs E P σ s o)
    (h' : c'.Runs E P σ c.names o')
    (le : s.registers ≤ c.names.registers) (place : c.place.Below c.names.registers)
    (ready : a.Reads E P σ s.registers ((c.steps ++ c'.steps).map (instr noExits) ++ k))
    (rest : ∀ x y trace a', a.Moved s.registers k a' → a'.values c.place = some (.word x) →
      a'.values c'.place = some (.word y) → E.Realizes a' callers trace Q (next x y)) :
    E.Realizes a callers trace Q
      (o >>= fun u => u.number >>= fun x => o' >>= fun v => v.number >>= fun y => next x y) := by
  rw [map_append, append_assoc] at ready
  refine h.word ready fun x trace a' moved held => ?_
  refine h'.word (ready.moved moved (suffix_append ..) le) fun y trace a'' moved' held' => ?_
  exact rest x y trace a'' (moved.trans moved' le) ((moved'.values _ place).trans held) held'

theorem Term.runs_arithmetic (operator : Arithmetic) (type : Ty) (left right : Term) :
    let c := left.code E.frame s
    c.Runs E P σ s o → (right.code E.frame c.names).Runs E P σ c.names o' →
      ((Term.arithmetic operator type left right).code E.frame s).Runs E P σ s (do
        let x ← (← o).number
        let y ← (← o').number
        return .word (← operator.coreMeaning E.setting.overflow type x y)) := by
  intro c h h' a k callers trace ready
  have le := (left.names_le E.frame s).1
  have le' := (right.names_le E.frame c.names).1
  have place := (left.place_inUse E.frame s).below
  unfold Term.code at ready ⊢
  rw [map_append, append_assoc] at ready
  refine h.both h' le place ready fun x y trace a' moved hx hy => ?_
  have faces := ready.faces.suffix (suffix_append ..) moved.function moved.rest
  exact realizes_after moved (Nat.le_trans le le') (realizes_arithmeticCode faces (place.mono le')
    (right.place_inUse E.frame c.names).below (Nat.le_refl _) hx hy)

theorem TermCode.Runs.cut (h : c.Runs E P σ s o) (le : s.registers ≤ c.names.registers) :
    TermCode.Runs E P σ s
      { cutCode c.place c.names with steps := c.steps ++ (cutCode c.place c.names).steps }
      (do return .word ((← (← o).number) &&& 255)) := by
  intro a k callers trace ready
  rw [map_append, append_assoc] at ready
  refine h.word ready fun x trace a' moved held => ?_
  exact realizes_after moved le (realizes_cut (Nat.le_refl _) held moved.rest)

/-! ### Calls -/

/-- A call whose result is left in the next register. -/
theorem ArgumentsCode.Runs.call {c : ArgumentsCode} {o : Outcome (List Scalar)}
    (answers : E.image.Answers E.setting) (h : c.Runs E P σ s o)
    (le : s.registers ≤ c.names.registers) (name : String) (type : IrType) {r : TermCode}
    (steps : r.steps = c.steps ++ [.line (.call (some (c.names.register, type)) name c.operands)])
    (place : r.place = c.names.register) :
    r.Runs E P σ s (do .ofOption (← E.setting.call name (← o))) := by
  intro a k callers trace ready
  rw [steps, map_append, append_assoc] at ready
  rw [place]
  refine (h a _ callers trace ready).chain ?_
  rintro cs trace _ ⟨a', data, rfl, moved, given, shown⟩
  have answer := answers name cs data shown _ callers trace _ _ (step_call moved.rest given)
  refine answer.chain fun result trace st resumed => .ofOption fun v eq => ?_
  subst eq
  obtain ⟨d, shown, rfl⟩ := resumed _ rfl
  have set := a'.moved_set (Nat.le_refl c.names.registers) d k
  exact ⟨_, d, rfl, moved.trans set le, Activation.set_self .., shown⟩

theorem Arguments.runs_cons (type : IrType) (value : Term) (rest : Arguments)
    {os : Outcome (List Scalar)} :
    let c := value.code E.frame s
    c.Runs E P σ s o → (rest.code E.frame c.names).Runs E P σ c.names os →
      ((Arguments.cons type value rest).code E.frame s).Runs E P σ s (do
        let v ← o
        let vs ← os
        return v :: vs) := by
  intro c h hs a k callers trace ready
  have le := (value.names_le E.frame s).1
  unfold Arguments.code at ready ⊢
  rw [map_append, append_assoc] at ready
  refine (h a _ callers trace ready).chain ?_
  rintro v trace _ ⟨a', d, rfl, moved, held, shown⟩
  refine (hs a' _ callers trace (ready.moved moved (suffix_append ..) le)).chain ?_
  rintro vs trace _ ⟨a'', data, rfl, moved', given, shown'⟩
  refine .pure ⟨a'', d :: data, rfl, moved.trans moved' le, ?_, .cons shown shown'⟩
  have kept : a''.value (.register c.place) = some d :=
    (moved'.values _ (value.place_inUse E.frame s).below).trans held
  rw [mapM_cons, kept, given]
  rfl

/-! ### Choices -/

/-- One branch of a choice between values: control goes to the end of the branch, and from there to
the join. -/
theorem TermCode.Runs.branch (h : c.Runs E P σ s o) {exit : Label} {names : NameSupply}
    (ready : a.Reads E P σ s.registers (c.steps.map (instr noExits) ++ .jump (some exit)
      :: Instr.label exit :: .jump (some join) :: behind))
    (atJoin : linesAfter join a.function.body
      = some (.phi names.register type first firstFrom second secondFrom ::
      k)) (arrival : exit = firstFrom ∧ first = .register c.place ∨ exit ≠ firstFrom ∧
        exit = secondFrom ∧ second =
      .register c.place) (le : s.registers ≤ names.registers) :
    E.Realizes a callers trace (a.Delivers E.image s.registers k callers names.register) o := by
  rw [← bind_pure o]
  refine (h a _ callers trace ready).chain ?_
  rintro v trace _ ⟨a', d, rfl, moved, held, shown⟩
  have atExit : linesAfter exit a'.function.body = some (.jump (some join) :: behind) :=
    moved.function ▸ ready.faces.label (.trans ⟨[.jump (some exit)], rfl⟩ (suffix_append ..))
  refine .step (step_jump moved.rest atExit) ?_
  have moved' :=
    moved.trans (a'.moved_goto s.registers (.jump (some join) :: behind) (some exit) a'.block)
    (Nat.le_refl _)
  refine realizes_after moved' (Nat.le_refl _)
    (realizes_join rfl (moved.function ▸ atJoin) ?_ le shown)
  rcases arrival with ⟨rfl, rfl⟩ | ⟨other, rfl, rfl⟩
  · exact .inl ⟨rfl, held⟩
  · exact .inr ⟨fun eq => other (Option.some.inj eq), rfl, held⟩

/-- A choice between values, by a test. -/
theorem Term.runs_choice (type : IrType) (condition : Test) (thenValue elseValue : Term)
    {o : Outcome Bool} {o₁ o₂ : Outcome Scalar} :
    let t := condition.code E.frame s
    let c := thenValue.code E.frame t.names.nextLabel
    let c' := elseValue.code E.frame c.names.nextLabel.nextLabel
    t.Decides E P σ s o → c.Runs E P σ t.names.nextLabel o₁ →
      c'.Runs E P σ c.names.nextLabel.nextLabel o₂ →
      ((Term.choice type condition thenValue elseValue).code E.frame s).Runs E P σ s
        (do if ← o then o₁ else o₂) := by
  intro t c c' h h₁ h₂ a k callers trace ready
  have le : s.registers ≤ t.names.registers := (condition.names_le E.frame s).1
  have le₁ : t.names.registers ≤ c.names.registers :=
    (thenValue.names_le E.frame t.names.nextLabel).1
  obtain ⟨le₂, labels⟩ := elseValue.names_le E.frame c.names.nextLabel.nextLabel
  let elseLabel := c.names.nextLabel.label
  let join := c'.names.nextLabel.label
  let atJoin : List Instr :=
    .phi c'.names.register type (.register c.place) c.names.label
      (.register c'.place) c'.names.label :: k
  let endThen : List Instr :=
    [.jump (some c.names.label), Instr.label c.names.label, .jump (some join)]
  let endElse : List Instr :=
    [.jump (some c'.names.label), Instr.label c'.names.label, .jump (some join)]
  let atElse : List Instr :=
    c'.steps.map (instr noExits) ++ (endElse ++ Instr.label join :: atJoin)
  have lines : ((Term.choice type condition thenValue elseValue).code E.frame s).steps.map
        (instr noExits) ++ k
      = t.steps.map (instr fun b => (toLabels t.names.label elseLabel b).target noExits) ++
        Instr.label t.names.label ::
          ((c.steps.map (instr noExits) ++ endThen) ++ Instr.label elseLabel :: atElse) := by
    simp only [Term.code, map_append, map_instr_bind, append_assoc, map_cons, cons_append]
    rfl
  -- Both arms come to the same join, each from the label of its own last block.
  have joined (sub : atElse <:+ ((Term.choice type condition thenValue elseValue).code
      E.frame s).steps.map (instr noExits) ++ k) :
      linesAfter join a.function.body = some atJoin :=
    ready.faces.label (.trans ⟨c'.steps.map (instr noExits) ++ endElse, append_assoc ..⟩ sub)
  refine h.fork ready lines (fun trace a' sub moved _ => ?_) fun trace a' sub moved _ => ?_
  · have there := joined (.trans ⟨_, (append_cons ..).symm⟩ sub)
    have ready' := ready.moved moved sub le
    rw [append_assoc] at ready'
    exact realizes_after moved le
      (h₁.branch ready' (moved.function ▸ there) (.inl ⟨rfl, rfl⟩) (Nat.le_trans le₁ le₂))
  · have other : c'.names.label ≠ c.names.label :=
      fun eq => NameSupply.label_ne (Nat.lt_of_succ_lt labels) (congrArg some eq)
    exact realizes_after moved (Nat.le_trans le le₁)
      (h₂.branch (ready.moved moved sub (Nat.le_trans le le₁)) (moved.function ▸ joined sub)
        (.inr ⟨other, rfl, rfl⟩) le₂)

/-- A second test, which is made when the first one has the outcome `value`. -/
theorem Code.Waits.connect {c c' : Code Bool} {o o' : Outcome Bool} (value : Bool)
    (h : c.Waits E P σ s o)
    (h' : c'.Waits E P σ c.names.nextLabel o') (le : s.registers ≤ c.names.registers)
    (steps : r.steps = c.steps.map (Step.bind (Exit.connect value c.names.label)) ++ .line
      (.label c.names.label) :: c'.steps) {next : Bool → Outcome Bool} (taken : next value = o')
      (passed : next (!value) = pure !value) :
    r.Waits E P σ s (o >>= next) := by
  intro ρ a k callers trace ready
  let atNext : List Instr := c'.steps.map (instr ρ) ++ k
  have lines : r.steps.map (instr ρ) ++ k
      = c.steps.map (instr fun b => (Exit.connect value c.names.label b).target ρ) ++
        Instr.label c.names.label :: atNext := by
    rw [steps, map_append, map_instr_bind, append_assoc]
    rfl
  rw [lines] at ready
  have tail :=
    suffix_append (c.steps.map (instr fun b => (Exit.connect value c.names.label b).target ρ))
    (Instr.label c.names.label :: atNext)
  refine (h _ a _ callers trace ready).chain fun b trace st stops => ?_
  by_cases same : b = value
  · rw [same, taken]
    refine stops.goto (congrArg (Exit.target ρ) (if_pos same)) (ready.faces.label tail)
      fun a' moved _ => ?_
    have ready' : a'.Reads E P σ c.names.nextLabel.registers atNext :=
      ready.moved moved (.trans ⟨[Instr.label c.names.label], rfl⟩ tail) le
    refine (h' ρ a' k callers trace ready').imp fun b trace st post => ?_
    have whole : r.steps = (c.steps.map (Step.bind (Exit.connect value c.names.label)) ++
        [.line (.label c.names.label)]) ++ c'.steps ++ [] := by
      rw [steps, List.append_nil, append_cons]
    exact (post.after moved le).within whole
  · obtain rfl : b = !value := Bool.eq_not.mpr same
    rw [passed]
    have whole : r.steps = [] ++ c.steps.map (Step.bind (Exit.connect value c.names.label)) ++
        .line (.label c.names.label) :: c'.steps := steps
    exact .pure ((stops.bind (if_neg same)).within whole)

/-- A choice between tests. -/
theorem Test.waits_choice (condition thenTest elseTest : Test) {o o₁ o₂ : Outcome Bool} :
    let t := condition.code E.frame s
    let c := thenTest.code E.frame t.names.nextLabel
    t.Waits E P σ s o → c.Waits E P σ t.names.nextLabel o₁ →
      (elseTest.code E.frame c.names.nextLabel).Waits E P σ c.names.nextLabel o₂ →
      ((Test.choice condition thenTest elseTest).code E.frame s).Waits E P σ s
        (do if ← o then o₁ else o₂) := by
  intro t c h h₁ h₂ ρ a k callers trace ready
  let c' := elseTest.code E.frame c.names.nextLabel
  have le : s.registers ≤ t.names.registers := (condition.names_le E.frame s).1
  have le₁ : s.registers ≤ c.names.registers :=
    Nat.le_trans le (thenTest.names_le E.frame t.names.nextLabel).1
  have lines : ((Test.choice condition thenTest elseTest).code E.frame s).steps.map (instr ρ) ++ k
      = t.steps.map (instr fun b => (toLabels t.names.label c.names.label b).target ρ) ++
        Instr.label t.names.label :: (c.steps.map (instr ρ) ++
          Instr.label c.names.label :: (c'.steps.map (instr ρ) ++ k)) := by
    simp only [Test.code, map_append, map_instr_bind, append_assoc, map_cons, cons_append]
    rfl
  let exits : List (Step Bool) :=
    t.steps.map (Step.bind (toLabels t.names.label c.names.label)) ++
    [.line (.label t.names.label)]
  refine h.decides.fork ready lines (fun trace a' sub moved _ => ?_) fun trace a' sub moved _ => ?_
  · refine (h₁ ρ a' _ callers trace (ready.moved moved sub le)).imp fun b trace st post => ?_
    have whole : ((Test.choice condition thenTest elseTest).code E.frame s).steps
        = exits ++ c.steps ++ .line (.label c.names.label) :: c'.steps := by
      simp only [Test.code, exits, ← append_cons]
      rfl
    exact (post.after moved le).within whole
  · refine (h₂ ρ a' k callers trace (ready.moved moved sub le₁)).imp fun b trace st post => ?_
    have whole : ((Test.choice condition thenTest elseTest).code E.frame s).steps
        = (exits ++ c.steps ++ [.line (.label c.names.label)]) ++ c'.steps ++ [] := by
      simp only [Test.code, exits, append_nil, ← append_cons]
      rfl
    exact (post.after moved le₁).within whole

theorem Code.Waits.not {c : Code Bool} {o : Outcome Bool} (h : c.Waits E P σ s o)
    (steps : r.steps = c.steps.map (Step.bind fun b => .via !b)) :
    r.Waits E P σ s (do return !(← o)) := by
  intro ρ a k callers trace ready
  rw [steps, map_instr_bind] at ready
  refine (h _ a k callers trace ready).chain fun b trace st stops => .pure ?_
  rw [steps]
  exact stops.bind rfl

theorem Test.waits_compare (predicate : Predicate) (left right : Term) :
    let c := left.code E.frame s
    c.Runs E P σ s o → (right.code E.frame c.names).Runs E P σ c.names o' →
      ((Test.compare predicate left right).code E.frame s).Waits E P σ s (do
        let x ← (← o).number
        let y ← (← o').number
        return predicate.holds x y) := by
  intro c h h' ρ a k callers trace ready
  have le := (left.names_le E.frame s).1
  have le' := (right.names_le E.frame c.names).1
  unfold Test.code at ready
  rw [map_append, map_instr_lift, append_assoc] at ready
  refine h.both h' le (left.place_inUse E.frame s).below ready fun x y trace a' moved hx hy => ?_
  have stops : E.Realizes a' callers trace (a'.Stops _ callers
      ((Test.compare predicate left right).code E.frame s).steps ρ k) _ :=
    stops_compare (Nat.le_refl _) rfl moved.rest (Activation.word_register hx)
      (Activation.word_register hy)
  exact stops.imp fun b trace st post => post.after moved (Nat.le_trans le le')

end Parts

/-! ## Terms and tests -/

section Runs

variable {E : Scene} {P : Place → Prop} {σ : Locals} {Q : Signatures}

mutual

/-- The code of a term computes what the term means. -/
theorem Term.runs (answers : E.image.Answers E.setting) : ∀ (t : Term) (s : NameSupply), t.All P Q →
    E.image.Holds (t.code E.frame s).globals → (t.code E.frame s).Runs E P σ s (t.eval E.setting σ)
  | .number value, s, _, _ => fun a k callers trace ready =>
    realizes_compute ready.faces.rest (Nat.le_refl _) rfl rfl (congrArg some (BitVec.zero_add _))
  | .text text, s, _, known => fun a k callers trace ready =>
    realizes_set (Nat.le_refl _) known.text.2
      (State.step_stringAddress ready.faces.rest known.text.1)
  | .read place, s, reached, _ => Place.runs reached
  | .call name type arguments, s, inside, known =>
    (arguments.runs answers s inside.2 known).call answers (arguments.names_le E.frame s) name
      type rfl rfl
  | .truth test, s, inside, known =>
    (test.waits answers s inside known).decides.materialize (test.names_le E.frame s).1
  | .arithmetic operator type left right, s, inside, known => by
    obtain ⟨known, -⟩ := Image.holds_append.mp known
    obtain ⟨knownLeft, knownRight⟩ := Image.holds_append.mp known
    exact Term.runs_arithmetic operator type left right (left.runs answers s inside.1 knownLeft)
      (right.runs answers _ inside.2 knownRight)
  | .cut operand, s, inside, known =>
    (operand.runs answers s inside known).cut (operand.names_le E.frame s).1
  | .same operand, s, inside, known => operand.runs answers s inside known
  | .choice type condition thenValue elseValue, s, inside, known => by
    obtain ⟨known, knownElse⟩ := Image.holds_append.mp known
    obtain ⟨knownTest, knownThen⟩ := Image.holds_append.mp known
    exact Term.runs_choice type condition thenValue elseValue
      (condition.waits answers s inside.1 knownTest).decides
      (thenValue.runs answers _ inside.2.1 knownThen)
      (elseValue.runs answers _ inside.2.2 knownElse)

/-- The code of a test stops at the exit that the test says. -/
theorem Test.waits (answers : E.image.Answers E.setting) :
    ∀ (t : Test) (s : NameSupply), t.All P Q →
    E.image.Holds (t.code E.frame s).globals → (t.code E.frame s).Waits E P σ s (t.eval E.setting σ)
  | .constant value, s, _, _ => by
    intro ρ a k callers trace ready
    exact .pure ⟨a, [], .jump (.via value), [], rfl, rfl,
      ⟨rfl, ready.faces.rest, rfl, fun _ _ => rfl⟩, rfl⟩
  | .read place, s, reached, _ => by
    have held : (place.code E.frame s).Runs E P σ s _ := Place.runs reached
    have decided := held.nonzero ((Term.read place).names_le E.frame s).1
    rw [pure_bind, Scalar.number_word_bind] at decided
    exact decided
  | .call name arguments, s, inside, known => by
    have called : ((Term.call name .i32 arguments).code E.frame s).Runs E P σ s _ :=
      (arguments.runs answers s inside.2 known).call answers (arguments.names_le E.frame s) name
        .i32 rfl rfl
    have decided := called.nonzero (Nat.le_succ_of_le (arguments.names_le E.frame s))
    simp only [bind_assoc] at decided
    exact decided
  | .not operand, s, inside, known => (operand.waits answers s inside known).not rfl
  | .and left right, s, inside, known => by
    obtain ⟨knownLeft, knownRight⟩ := Image.holds_append.mp known
    exact (left.waits answers s inside.1 knownLeft).connect true
      (right.waits answers _ inside.2 knownRight) (left.names_le E.frame s).1 rfl rfl rfl
  | .or left right, s, inside, known => by
    obtain ⟨knownLeft, knownRight⟩ := Image.holds_append.mp known
    exact (left.waits answers s inside.1 knownLeft).connect false
      (right.waits answers _ inside.2 knownRight) (left.names_le E.frame s).1 rfl rfl rfl
  | .compare predicate left right, s, inside, known => by
    obtain ⟨knownLeft, knownRight⟩ := Image.holds_append.mp known
    exact Test.waits_compare predicate left right (left.runs answers s inside.1 knownLeft)
      (right.runs answers _ inside.2 knownRight)
  | .same operand, s, inside, known => operand.waits answers s inside known
  | .choice condition thenTest elseTest, s, inside, known => by
    obtain ⟨known, knownElse⟩ := Image.holds_append.mp known
    obtain ⟨knownTest, knownThen⟩ := Image.holds_append.mp known
    exact Test.waits_choice condition thenTest elseTest
      (condition.waits answers s inside.1 knownTest) (thenTest.waits answers _ inside.2.1 knownThen)
      (elseTest.waits answers _ inside.2.2 knownElse)

theorem Arguments.runs (answers : E.image.Answers E.setting) :
    ∀ (as : Arguments) (s : NameSupply), as.All P Q →
    E.image.Holds (as.code E.frame s).globals →
      (as.code E.frame s).Runs E P σ s (as.eval E.setting σ)
  | .nil, s, _, _ => by
    intro a k callers trace ready
    exact .pure ⟨a, [], rfl, ⟨rfl, ready.faces.rest, rfl, fun _ _ => rfl⟩, rfl, .nil⟩
  | .cons type value rest, s, inside, known => by
    obtain ⟨knownValue, knownRest⟩ := Image.holds_append.mp known
    exact Arguments.runs_cons type value rest (value.runs answers s inside.1 knownValue)
      (rest.runs answers _ inside.2 knownRest)

end

theorem Test.decides (answers : E.image.Answers E.setting) (t : Test) (s : NameSupply)
    (inside : t.All P Q) (known : E.image.Holds (t.code E.frame s).globals) :
    (t.code E.frame s).Decides E P σ s (t.eval E.setting σ) :=
  (t.waits answers s inside known).decides

end Runs

end Backpatch
