import Backpatch.Proofs.Machine.Actions
import Backpatch.Proofs.Machine.Image
import Backpatch.Proofs.Semantics.Program

/-!
# Executing functions

A function reserves its frame, stores the parameters that are assigned to, executes its body, and
returns what the body says (`Routine.executes`). Calls therefore do what the meaning of calls says,
by induction on the limit, and the finished code of a program runs as the program does
(`Program.compile_runs`).
-/

namespace Backpatch

open Step List

/-! ## The beginning of a function -/

/-- The activation with a block that it has reserved. -/
def Activation.reserved (a : Activation) (r : Register) (size : Nat) : Activation :=
  { a.set r (.address r 0) with
    memory := fun r' => if r' = r then some (replicate size none) else a.memory r' }

theorem Activation.reserve_eq (a : Activation) (r : Register) (size : Nat)
    (new : a.memory r = none) : a.reserve r size = some (a.reserved r size) := by
  unfold reserve
  rw [new]
  rfl

theorem Activation.reserved_self (a : Activation) (r : Register) (size : Nat) :
    (a.reserved r size).values r = some (.address r 0) ∧
      (a.reserved r size).memory r = some (replicate size none) :=
  ⟨if_pos rfl, if_pos rfl⟩

theorem Activation.reserved_of_ne (a : Activation) {r r' : Register} (other : r' ≠ r) (size : Nat) :
    (a.reserved r size).values r' = a.values r' ∧ (a.reserved r size).memory r' = a.memory r' :=
  ⟨if_neg other, if_neg other⟩

/-- The parameters from `index` on that have places of their own have been stored there. -/
structure Activation.Spilled (a : Activation) (index : Nat) (slots : List (Option Nat)) (σ : Locals)
    (a' : Activation) : Prop where
  function : a'.function = a.function
  kept : ∀ r, (∀ slot, some slot ∈ slots → r ≠ .temp slot) → a'.values r = a.values r ∧
    a'.memory r = a.memory r
  stored : ∀ (i slot : Nat), slots[i]? = some (some slot) →
    a'.values (.temp slot) = some (.address (.temp slot) 0) ∧
      a'.memory (.temp slot) = some [some (σ (.parameter (index + i)))]

section Beginning

open State

variable {M : Image} {overflow : Option Word} {a : Activation} {callers : List Caller}
  {trace : List Event} {k : List Instr} {σ : Locals}

theorem step_allocaSlot {r : Register} (line : a.rest = .allocaSlot r :: k)
    (new : a.memory r = none) :
    (running a callers trace).step M overflow
      = some (running ({ a with rest := k }.reserved r 1) callers trace) := by
  rw [step_cons line]
  exact congrArg (Option.map (running · callers trace))
    (Activation.reserve_eq { a with rest := k } r 1 new)

theorem step_allocaFrame {size : Nat} (line : a.rest = .allocaFrame size :: k)
    (new : a.memory .frame = none) : (running a callers trace).step M overflow
      = some (running ({ a with rest := k }.reserved .frame size) callers trace) := by
  rw [step_cons line]
  exact congrArg (Option.map (running · callers trace))
    (Activation.reserve_eq { a with rest := k } .frame size new)

/-- One parameter is stored. -/
theorem steps_spill {index slot : Nat} {w : Word}
    (line : a.rest = .allocaSlot (.temp slot) :: .store (.register (.argument index))
      (.temp slot) :: k)
    (argument : a.values (.argument index) = some (.word w)) (new : a.memory (.temp slot) = none) :
    ∃ a', (running a callers trace).Steps M overflow (running a' callers trace) ∧
      a'.function = a.function ∧ a'.rest = k ∧
      a'.values (.temp slot) = some (.address (.temp slot) 0) ∧
        a'.memory (.temp slot) = some [some w] ∧
      ∀ r, r ≠ .temp slot → a'.values r = a.values r ∧ a'.memory r = a.memory r := by
  let lines : List Instr := .store (.register (.argument index)) (.temp slot) :: k
  let a₁ := { a with rest := lines }.reserved (.temp slot) 1
  have held : a₁.word (.register (.argument index)) = some w :=
    Activation.word_register ((Activation.reserved_of_ne _ Register.noConfusion 1).1.trans argument)
  obtain ⟨address, cells⟩ := Activation.reserved_self { a with rest := lines } (.temp slot) 1
  have written : a₁.memory.write (.temp slot) 0 w
      = some fun r => if r = .temp slot then some [some w] else a₁.memory r := by
    unfold Memory.write
    rw [cells]
    rfl
  refine ⟨_, .head (step_allocaSlot line new)
    (.head (step_store rfl held address written) (.refl _)), rfl, rfl, address, if_pos rfl,
    fun r other => ?_⟩
  obtain ⟨values, memory⟩ := Activation.reserved_of_ne { a with rest := lines } other 1
  exact ⟨values, (if_neg other).trans memory⟩

theorem steps_spillLines {index : Nat} {slots : List (Option Nat)}
    (line : a.rest = Routine.spillLines index slots ++ k)
    (arguments : ∀ (i slot : Nat), slots[i]? = some (some slot) →
      a.values (.argument (index + i)) = some (.word (σ (.parameter (index + i)))))
    (new : ∀ slot, some slot ∈ slots → a.memory (.temp slot) = none)
    (distinct : ∀ (i j slot : Nat), slots[i]? = some (some slot) →
      slots[j]? = some (some slot) → i = j) :
    ∃ a', (running a callers trace).Steps M overflow (running a' callers trace) ∧ a'.rest = k ∧
      a.Spilled index slots σ a' := by
  induction slots generalizing index a with
  | nil => exact ⟨a, .refl _, line, rfl, fun _ _ => ⟨rfl, rfl⟩, fun i slot found => by cases found⟩
  | cons first slots ih =>
    have shifted : ∀ i, index + (i + 1) = index + 1 + i := fun i => by omega
    have later : ∀ (i j slot : Nat), slots[i]? = some (some slot) →
        slots[j]? = some (some slot) → i = j :=
      fun i j slot hi hj => Nat.succ.inj (distinct (i + 1) (j + 1) slot hi hj)
    cases first with
    | none =>
      have line : a.rest = Routine.spillLines (index + 1) slots ++ k := line
      obtain ⟨a', steps, rest, spilled⟩ := ih line
        (fun i slot found => shifted i ▸ arguments (i + 1) slot found)
        (fun slot mem => new slot (mem_cons_of_mem _ mem)) later
      refine ⟨a', steps, rest, spilled.function, fun r other => ?_, fun i slot found => ?_⟩
      · exact spilled.kept r fun slot mem => other slot (mem_cons_of_mem _ mem)
      · cases i with
        | zero => cases found
        | succ i => exact shifted i ▸ spilled.stored i slot found
    | some slot =>
      -- No place is listed twice, so the later lines leave this one as it is.
      have fresh : some slot ∉ slots := by
        intro mem
        obtain ⟨j, found⟩ := mem_iff_getElem?.mp mem
        exact Nat.succ_ne_zero j (distinct 0 (j + 1) slot rfl found).symm
      obtain ⟨a₁, steps₁, function, rest₁, address, cells, kept⟩ :=
        steps_spill line (arguments 0 slot rfl) (new slot mem_cons_self)
      have apart : ∀ other, some other ∈ slots → Register.temp other ≠ .temp slot := by
        rintro other mem eq
        cases Register.temp.inj eq
        exact fresh mem
      obtain ⟨a', steps, rest, spilled⟩ := ih rest₁
        (fun i slot' found =>
          (kept _ Register.noConfusion).1.trans (shifted i ▸ arguments (i + 1) slot' found))
        (fun other mem => (kept _ (apart other mem)).2.trans (new other (mem_cons_of_mem _ mem)))
          later
      refine ⟨a', steps₁.trans steps, rest, spilled.function.trans function, fun r other => ?_,
        fun i slot' found => ?_⟩
      · obtain ⟨values, memory⟩ := spilled.kept r fun slot mem => other slot (mem_cons_of_mem _ mem)
        obtain ⟨values', memory'⟩ := kept r (other slot mem_cons_self)
        exact ⟨values.trans values', memory.trans memory'⟩
      · cases i with
        | zero =>
          obtain rfl := Option.some.inj (Option.some.inj found)
          obtain ⟨values, memory⟩ :=
            spilled.kept (.temp slot) fun other mem eq => apart other mem eq.symm
          exact ⟨values.trans address, memory.trans cells⟩
        | succ i => exact shifted i ▸ spilled.stored i slot' found

/-- The places hold the arguments where the body of a function begins. -/
theorem steps_beginning {f : Routine} {limit : Nat} {Q : Signatures} {s : NameSupply}
    {words : List Word} (inScope : f.Scoped limit Q) (count : words.length = f.parameters.length)
    (body : (f.function s).body = f.frameLines ++ Routine.spillLines 0 f.slots ++ k) :
    ∃ a, (running ((f.function s).start (words.map .word)) callers trace).Steps M overflow
      (running a callers trace) ∧
      a.function = f.function s ∧ a.rest = k ∧ a.Stores f.frame limit [] (.ofArguments words) := by
  let start := (f.function s).start (words.map .word)
  let after : List Instr := Routine.spillLines 0 f.slots ++ k
  -- The frame is reserved if there is something to keep in it.
  obtain ⟨a, steps, function, rest, reserved, memory, values⟩ : ∃ a,
      (running start callers trace).Steps M overflow (running a callers trace) ∧
        a.function = f.function s ∧ a.rest = after ∧
        (0 < f.frame.size → a.values .frame = some (.address .frame 0) ∧
          a.memory.Sized .frame f.frame.size.toNat) ∧
        (∀ n, a.memory (.temp n) = none) ∧ ∀ index, a.values (.argument index)
          = (words.map Datum.word)[index]? := by
    by_cases positive : 0 < f.frameSize
    · have line : start.rest = .allocaFrame f.frameSize :: after := by
        show (f.function s).body = _
        rw [body]
        unfold Routine.frameLines
        rw [if_pos positive]
        rfl
      obtain ⟨address, cells⟩ :=
        Activation.reserved_self { start with rest := after } .frame f.frameSize
      exact ⟨_, .head (step_allocaFrame line rfl) (.refl _), rfl, rfl,
        fun _ => ⟨address, _, cells, length_replicate⟩, fun n => rfl, fun index => rfl⟩
    · have line : start.rest = after := by
        show (f.function s).body = _
        rw [body]
        unfold Routine.frameLines
        rw [if_neg positive]
        rfl
      have empty : ¬0 < f.frame.size := fun size => positive (Int.natCast_pos.mp size)
      exact ⟨start, .refl _, rfl, line, fun size => absurd size empty, fun n =>
        rfl, fun index => rfl⟩
  have given : ∀ index, index < words.length →
      a.values (.argument index) = some (.word (Locals.ofArguments words (.parameter index))) := by
    intro index inside
    rw [values, getElem?_map, getElem?_eq_getElem inside]
    show _ = some (Datum.word (words[index]?.getD 0))
    rw [getElem?_eq_getElem inside]
    rfl
  have inside : ∀ (index : Nat) slot, f.slots[index]? = some slot → index < words.length := by
    intro index slot found
    rw [count, ← inScope.slots]
    exact (List.getElem?_eq_some_iff.mp found).1
  obtain ⟨a', steps', rest', spilled⟩ := steps_spillLines rest
    (fun i slot found => (Nat.zero_add i).symm ▸ given i (inside i _ found))
      (fun slot _ => memory slot) inScope.distinct
  refine ⟨a', steps.trans steps', spilled.function.trans function, rest', ?_, forall_mem_nil _,
    forall_mem_nil _, fun index slot found => ?_, fun index found => ?_⟩
  · obtain ⟨frameValues, frameMemory⟩ := spilled.kept .frame fun slot _ => Register.noConfusion
    unfold Memory.Sized
    rw [frameValues, frameMemory]
    exact reserved
  · obtain ⟨n, rfl, located⟩ := Routine.exists_slot found
    obtain ⟨address, cells⟩ := spilled.stored index n located
    rw [Nat.zero_add] at cells
    refine ⟨address, ⟨_, cells, rfl⟩, ?_⟩
    unfold Memory.read
    rw [cells]
    rfl
  · rw [f.getElem?_slots] at found
    obtain ⟨own, located, -⟩ := Option.map_eq_some_iff.mp found
    exact ((spilled.kept _ fun slot _ => Register.noConfusion).1).trans
      (given index (inside index own located))

end Beginning

/-! ## Functions -/

section Functions

open State

variable {M : Image} {C : CoreSetting} {f : Routine} {limit : Nat} {s : NameSupply}
  {callers : List Caller} {trace : List Event}

theorem Routine.Scoped.sound {Q : Signatures} (inScope : f.Scoped limit Q) :
    f.frame.Sound limit := by
  refine ⟨fun index slot found => ?_, fun i j slot found found' => ?_⟩
  · obtain ⟨own, located, eq⟩ := Option.map_eq_some_iff.mp ((getElem?_map ..).symm.trans found)
    obtain ⟨n, rfl, rfl⟩ := Option.map_eq_some_iff.mp eq
    exact ⟨n, inScope.low index n located, rfl⟩
  · obtain ⟨own, located, eq⟩ := Option.map_eq_some_iff.mp ((getElem?_map ..).symm.trans found)
    obtain ⟨n, rfl, rfl⟩ := Option.map_eq_some_iff.mp eq
    obtain ⟨own', located', eq'⟩ := Option.map_eq_some_iff.mp ((getElem?_map ..).symm.trans found')
    obtain ⟨m, rfl, same⟩ := Option.map_eq_some_iff.mp eq'
    cases same
    exact inScope.distinct i j n located located'

/-- What a function does when its body has come to its end. -/
theorem realizes_end {a : Activation} (line : a.rest = f.endLines) :
    (running a callers trace).Realizes M C.overflow trace
      (Scene.Returns ⟨M, C, f.frame, limit⟩ callers) (f.finish .next) := by
  unfold Routine.endLines at line
  unfold Routine.finish
  dsimp only
  by_cases entry : f.name = "main"
  · rw [if_pos entry] at line ⊢
    refine .head ((step_call line rfl).trans ?_) (.refl _)
    exact call_primitive_ends (Eq.refl (M.perform .exit [.word 0]))
  · rw [if_neg entry] at line ⊢
    by_cases void : f.returnType = .void
    · rw [if_pos void] at line ⊢
      exact .pure ⟨none, .none, step_ret_none line⟩
    · rw [if_neg void] at line ⊢
      exact .pure ⟨some (.word 0), .some rfl, step_ret_some line rfl⟩

/-- A function that is called does what its body means, and then goes back to its caller. -/
theorem Routine.executes {Q : Signatures} (answers : M.Answers C) (inScope : f.Scoped limit Q)
    (le : limit ≤ s.registers)
    (labels : (labelsOf (f.function s).body).Nodup) (known : M.Holds (f.code s).globals)
    {words : List Word} (count : words.length = f.parameters.length) :
    (running ((f.function s).start (words.map .word)) callers trace).Realizes M C.overflow trace
      (Scene.Returns ⟨M, C, f.frame, limit⟩ callers)
      (do f.finish (← f.body.exec C (.ofArguments words)).1) := by
  let E : Scene := ⟨M, C, f.frame, limit⟩
  let body := Action.code f.frame (.block f.body) s
  let ρ : Leave → Target := fun _ => some body.names.label
  let behind : List Instr := Instr.label body.names.label :: f.endLines
  have lines : (f.function s).body = f.frameLines ++ spillLines 0 f.slots
      ++ (body.steps.map (instr ρ) ++ behind) := by
    show (f.code s).steps.map (instr noExits) = _
    unfold Routine.code
    have plain : ∀ lines : List Instr, (lines.map Step.line).map (instr noExits) = lines := by
      intro lines
      rw [map_map]
      exact map_id lines
    simp only [map_append, plain, map_instr_bind, append_assoc]
    rfl
  obtain ⟨a, steps, function, rest, stores⟩ := steps_beginning inScope count lines
  have sound : E.Sound := ⟨answers, inScope.sound⟩
  have faces : a.Faces (body.steps.map (instr ρ) ++ behind) := by
    refine ⟨rest, ?_, function ▸ labels⟩
    rw [function, lines]
    exact suffix_append ..
  have lands : Lands a.function.body ρ fun _ => f.endLines :=
    fun _ => ⟨_, rfl, faces.label (suffix_append ..)⟩
  have executed := Action.executes sound (.block f.body) s (.ofArguments words) inScope.body known
  refine .steps steps ((executed ρ _ a behind callers trace lands ⟨le, stores, faces⟩).chain ?_)
  rintro ⟨flow, σ⟩ trace st left
  cases flow with
  | next =>
    obtain ⟨a', rfl, -, rest, -⟩ := left
    exact realizes_end rest
  | «break» | «continue» => trivial
  | «return» value => exact .pure left

/-- The caller goes on when a function goes back to it. -/
theorem Scene.Returns.resumes {E : Scene} {a : Activation} {result : Option Register}
    {value : Option Scalar} {st : State} (h : E.Returns (⟨result, a⟩ :: callers) value trace st) :
    st.Realizes E.image E.setting.overflow trace (a.Resumes E.image callers result)
      (pure value) := by
  obtain ⟨d, shown, step⟩ := h
  cases shown with
  | none =>
    cases result with
    | none => exact .step step (.pure fun _ => rfl)
    | some r => exact .pure fun eq => by cases eq
  | @some c d shown =>
    cases result with
    | none => exact .pure fun r eq => by cases eq
    | some r =>
      refine .step step (.pure fun r' eq => ?_)
      cases eq
      exact ⟨d, shown, rfl⟩

end Functions

/-! ## Calls -/

theorem shown_words {M : Image} {words : List Word} {data : List Datum}
    (h : List.Forall₂ (Scalar.Shown M) (words.map .word) data) : data = words.map .word := by
  induction words generalizing data with
  | nil =>
    cases h
    rfl
  | cons w words ih =>
    obtain ⟨d, data, first, rest, rfl⟩ := forall₂_cons_left_iff.mp h
    rw [ih rest, show d = .word w from first]
    rfl

theorem eq_map_of_mapM_word? {scalars : List Scalar} {words : List Word}
    (h : scalars.mapM Scalar.word? = some words) : scalars = words.map .word := by
  induction scalars generalizing words with
  | nil =>
    cases h
    rfl
  | cons c scalars ih =>
    rw [mapM_cons] at h
    obtain ⟨w, first, h⟩ := Option.bind_eq_some_iff.mp h
    obtain ⟨rest, later, h⟩ := Option.bind_eq_some_iff.mp h
    cases h
    cases c with
    | word w' =>
      cases first
      rw [map_cons, ← ih later]
    | text text => cases first

section Calls

open State

variable {M : Image} {overflow : Option Word}

/-- The functions that every program can call do what is said of them. -/
theorem realizes_runtimeCall {name : String} {scalars : List Scalar} {data : List Datum}
    (shown : List.Forall₂ (Scalar.Shown M) scalars data) {a : Activation} {callers : List Caller}
    {trace : List Event} {result : Option Register} {st : State}
    (step : st.step M overflow = call M a callers trace result name data) :
    st.Realizes M overflow trace (a.Resumes M callers result)
      (Routine.runtimeCall name scalars) := by
  -- A result is not asked for, and the machine has no next step where it is.
  have resumes (primitive : Primitive) {events : List Event} (named : name = primitive.name)
      (performed : M.perform primitive data = some (events, none)) :
      st.Realizes M overflow trace (a.Resumes M callers result) (.done events none) := by
    cases result with
    | none =>
      rw [named] at step
      exact ⟨_, .head (step.trans (call_primitive performed)) (.refl _), fun _ => rfl⟩
    | some r => exact ⟨st, .refl st, fun eq => by cases eq⟩
  unfold Routine.runtimeCall
  split
  · rename_i text
    obtain ⟨d, _, ⟨constant, rfl, held⟩, rest, rfl⟩ := forall₂_cons_left_iff.mp shown
    cases rest
    refine resumes .print rfl ?_
    show (M.text? constant).map _ = _
    rw [held]
    rfl
  · rename_i w
    obtain ⟨d, _, rfl, rest, rfl⟩ := forall₂_cons_left_iff.mp shown
    cases rest
    exact resumes .printi rfl rfl
  · trivial

/-- What the functions of an image have to be for calls to do what their meaning says. -/
structure Image.Carries (M : Image) (fs : List Routine) (limit : Nat) : Prop where
  found : ∀ f ∈ fs, ∃ s, M.function? f.name = some (f.function s) ∧ limit ≤ s.registers ∧
    (labelsOf (f.function s).body).Nodup ∧ M.Holds (f.code s).globals
  inScope : ∀ f ∈ fs, ∃ Q, f.Scoped limit Q
  apart : ∀ f ∈ fs, Primitive.ofName? f.name = none

/-- Calls do what their meaning says, by induction on how deep they may be nested. -/
theorem Image.Carries.answers {fs : List Routine} {registers : Nat} (h : M.Carries fs registers)
    (limit : Nat) : M.Answers (Routine.setting fs overflow limit) := by
  induction limit with
  | zero => exact fun _ _ _ _ _ _ _ _ _ _ => trivial
  | succ limit ih =>
    intro name scalars data shown a callers trace result st step
    show st.Realizes M overflow trace _ (Routine.call fs overflow (limit + 1) name scalars)
    unfold Routine.call
    cases located : fs.find? (·.name == name) with
    | none => exact realizes_runtimeCall shown step
    | some f =>
      have mem := mem_of_find?_eq_some located
      obtain rfl : f.name = name := by simpa using find?_some located
      obtain ⟨s, found, le, labels, known⟩ := h.found f mem
      obtain ⟨Q, inScope⟩ := h.inScope f mem
      show st.Realizes M overflow trace _ (f.run (Routine.setting fs overflow limit) scalars)
      unfold Routine.run
      refine .bind (.ofOption fun words passed => ?_)
      obtain rfl := eq_map_of_mapM_word? passed
      obtain rfl := shown_words shown
      by_cases count : words.length = f.parameters.length
      · rw [if_pos count]
        have entered : call M a callers trace result f.name (words.map .word)
            = some (running ((f.function s).start (words.map .word)) (⟨result, a⟩ :: callers)
              trace) := by
          unfold State.call
          rw [h.apart f mem]
          dsimp only
          rw [found]
          dsimp only
          rw [if_pos]
          exact (length_map _).trans (count.symm.trans (length_map _).symm)
        refine .step (step.trans entered) ?_
        have executed : (running ((f.function s).start (words.map .word)) (⟨result, a⟩ :: callers)
            trace).Realizes _ _ _ _ _ :=
          Routine.executes ih inScope le labels known count
        rw [← bind_pure (f.body.exec _ _ >>= _)]
        exact executed.chain fun value trace st returns => returns.resumes
      · rw [if_neg count]
        trivial

end Calls

/-! ## Programs -/

theorem Routine.registers_le_of_mem_placed {fs : List Routine} {s s' : NameSupply} {f : Routine}
    (h : (f, s') ∈ placed fs s) : s.registers ≤ s'.registers := by
  induction fs generalizing s with
  | nil => cases h
  | cons first fs ih =>
    rcases mem_cons.mp h with eq | mem
    · cases eq
      exact Nat.le_refl _
    · exact Nat.le_trans (Reading.results_of_read (first.read_code s)).1 (ih mem)

section Programs

variable {p : Program} {options : Options} {fs : List Routine} {registers : Nat} {b : CodeBuffer}

theorem map_fst_contents (globals : List Global) :
    (globals.filterMap Global.contents?).map Prod.fst = globals.filterMap Global.constant? := by
  rw [map_filterMap]
  congr 1
  funext g
  cases g <;> rfl

/-- Where constants have different names, each is found under its own. -/
theorem CodeBuffer.holds_image {b : CodeBuffer}
    (nodup : ((b.globals.toList.filterMap Global.contents?).map Prod.fst).Nodup) :
    b.image.Holds b.globals.toList := by
  intro name length body mem
  have entry : (name, body.toList) ∈ b.globals.toList.filterMap Global.contents? :=
    mem_filterMap.mpr ⟨_, mem, rfl⟩
  show ((b.globals.toList.filterMap Global.contents?).lookup name).bind Text.decode = _
  rw [lookup_of_mem nodup entry]
  rfl

section

variable (h : p.Compiled options fs registers b)

include h

/-- The constants have different names. -/
theorem Program.Compiled.nodup_constants :
    ((b.globals.toList.filterMap Global.contents?).map Prod.fst).Nodup := by
  obtain ⟨constants, high, globals, numbered⟩ := h.globals_eq
  have strings : constants.filterMap Global.constant? = (numbers 0 high).map .string := by
    have names := congrArg (filterMap id) numbered.names
    rw [filterMap_map, filterMap_map] at names
    rw [← filterMap_eq_map]
    exact names
  have prelude :
    ∀ emitRuntime, ((preludeGlobals emitRuntime).filterMap Global.constant?).Nodup := by decide
  have named : ∀ emitRuntime n, GlobalName.string n ∉ (preludeGlobals emitRuntime).filterMap
      Global.constant? := by
    intro emitRuntime n
    cases emitRuntime <;> simp [preludeGlobals, Prelude.runtimeGlobals, Prelude.declarations,
      Prelude.exitDeclaration, Global.constant?]
  rw [map_fst_contents, globals, filterMap_append, strings]
  refine nodup_append.mpr ⟨prelude _, ?_, fun name mem name' mem' eq => ?_⟩
  · exact List.Pairwise.map _ (fun m n ne eq => ne (GlobalName.string.inj eq)) nodup_range'
  · obtain ⟨n, -, rfl⟩ := mem_map.mp mem'
    exact named _ n (eq ▸ mem)

theorem Program.Compiled.holds {q : Routine × NameSupply}
    (mem : q ∈ Routine.placed fs { registers := registers }) :
    b.image.Holds (q.1.code q.2).globals := by
  intro name length body inside
  refine CodeBuffer.holds_image h.nodup_constants name length body ?_
  rw [h.buffer, Routine.globals_addAll]
  exact mem_append_right _ (mem_flatMap.mpr ⟨q, mem, inside⟩)

theorem Program.Compiled.nodup_labels_function {f : FunctionCode}
    (mem : f ∈ b.functions) : (labelsOf f.body).Nodup := by
  have all : f.labels.Sublist b.labels := by
    rw [h.labels_eq, flatMap_def]
    exact sublist_flatten_of_mem (mem_map_of_mem mem)
  rw [f.labels_eq] at all
  exact all.nodup h.nodup_labels

/-- The finished code is one of its functions, if none is called like a function that it brings
along. -/
theorem Program.Compiled.carries
    (names : ∀ f ∈ p.functions, f.name ∉ ["exit", zeroDivisionHandler]) :
    b.image.Carries fs registers := by
  obtain ⟨globals, chain, -⟩ := Program.elaborate_chain h.elaborated
  have apart : ∀ f ∈ fs, Primitive.ofName? f.name = none := by
    intro f mem
    have named : f.name ∈ fs.map Routine.name := mem_map_of_mem mem
    have free := chain.nodup_names.2 f.name named
    rw [Program.elaborate_names h.elaborated] at named
    obtain ⟨source, inside, eq⟩ := mem_map.mp named
    have other := names source inside
    rw [eq] at other
    refine find?_eq_none.mpr fun primitive _ same => ?_
    have same : primitive.name = f.name := eq_of_beq same
    rw [← same] at other free
    cases primitive with
    | print | printi => exact absurd free (by decide)
    | exit | zeroDivision => exact absurd other (by decide)
  refine ⟨fun f mem => ?_, chain.scoped, apart⟩
  rw [← Routine.map_placed fs { registers := registers }] at mem
  obtain ⟨⟨f, s⟩, placed, rfl⟩ := mem_map.mp mem
  have written : f.function s ∈ b.functions := by
    rw [h.functions_eq]
    exact mem_append_right _ (mem_map.mpr ⟨_, placed, rfl⟩)
  exact ⟨s, h.function?_eq placed (apart f (Routine.mem_of_mem_placed placed)),
    Routine.registers_le_of_mem_placed placed, h.nodup_labels_function written, h.holds placed⟩

/-- The finished code runs as the program does. -/
theorem Program.Compiled.runs
    (names : ∀ f ∈ p.functions, f.name ∉ ["exit", zeroDivisionHandler]) {overflow : Option Word}
    {trace : List Event} {ending : Ending} (runs : p.Runs overflow trace ending) :
    b.image.Runs overflow trace ending := by
  obtain ⟨limit, core⟩ := runs.core h.elaborated
  obtain ⟨f, s, placed, name, -, parameters, start⟩ := h.exists_main
  have carries := h.carries names
  have mem : f ∈ fs := Routine.mem_of_mem_placed placed
  obtain ⟨globals, chain, -⟩ := Program.elaborate_chain h.elaborated
  obtain ⟨Q, inScope⟩ := chain.scoped f mem
  have written : f.function s ∈ b.functions := by
    rw [h.functions_eq]
    exact mem_append_right _ (mem_map.mpr ⟨_, placed, rfl⟩)
  cases limit with
  | zero => rcases core with core | ⟨core, -⟩ <;> cases core
  | succ limit =>
    have located : fs.find? (·.name == "main") = some f :=
      name ▸ find?_eq_of_nodup chain.nodup_names.1 mem
    have called : Routine.call fs overflow (limit + 1) "main" []
        = (f.body.exec (Routine.setting fs overflow limit) (.ofArguments []) >>= fun done =>
          f.finish done.1) := by
      unfold Routine.call
      rw [located]
      show (pure [] >>= fun words => _) = _
      rw [pure_bind, if_pos (parameters ▸ rfl)]
      rfl
    have count : ([] : List Word).length = f.parameters.length := parameters ▸ rfl
    have executed : (State.running ((f.function s).start []) [] []).Realizes b.image overflow []
        (Scene.Returns ⟨b.image, Routine.setting fs overflow limit, f.frame, registers⟩ [])
        (Routine.call fs overflow (limit + 1) "main" []) :=
      called ▸ Routine.executes (carries.answers limit) inScope
        (Routine.registers_le_of_mem_placed placed)
        (h.nodup_labels_function written) (h.holds placed) count
    rcases core with stopped | ⟨done, rfl⟩
    · rw [stopped] at executed
      exact ⟨_, start, executed⟩
    -- `main` has no caller, so the machine ends when it returns.
    · rw [done] at executed
      obtain ⟨st, steps, d, -, step⟩ := executed
      exact ⟨_, start, steps.trans (.head step (.refl _))⟩

end

theorem clean_of_isIdentifier {name : String} (h : isIdentifier name = true) : Clean name := by
  have letters : ∀ c, (c.isAlpha || c == '_') = true ∨ (c.isAlphanum || c == '_') = true →
      c ≠ placeholder := by
    rintro c letter rfl
    exact absurd letter (by decide)
  unfold isIdentifier at h
  unfold Clean
  split at h
  · cases h
  · rename_i first rest chars
    obtain ⟨head, tail⟩ := Bool.and_eq_true_iff.mp h
    rw [chars]
    intro mem
    rcases mem_cons.mp mem with eq | mem
    · exact letters first (.inl head) eq.symm
    · exact letters _ (.inr (all_eq_true.mp tail _ mem)) rfl

end Programs

/-- Semantic preservation. A program that is accepted, with functions that are named by identifiers
and not like the functions that only the output knows, compiles, and whenever its run ends, the run
of the finished code ends in the same way and has shown the same events. This holds whatever the one
quotient that is out of range is taken to be. -/
theorem Program.compile_runs {p : Program} {options : Options} {tree : SyntaxTree} {c : Context}
    (h : p.analyze (.start options) = .ok (.ok tree, c))
    (names : ∀ f ∈ p.functions, isIdentifier f.name = true ∧
      f.name ∉ ["exit", "printf", zeroDivisionHandler]) :
    ∃ text b, p.compile options = .ok text ∧ p.emit options = .ok b ∧ b.render = .ok text ∧
      ∀ overflow trace ending, p.Runs overflow trace ending →
        b.image.Runs overflow trace ending := by
  have clean : ∀ f ∈ p.functions, Clean f.name := fun f mem => clean_of_isIdentifier (names f mem).1
  obtain ⟨exits, c', generated, -, closed, -⟩ := generate_closed h clean
  have rendered := CodeBuffer.render_of_openRecords closed
  have compiles : p.compile options = .ok c'.buffer.text := by
    rw [compile_of_analyze h, generated]
    show (c'.buffer.render).mapError _ = _
    rw [rendered]
    rfl
  obtain ⟨fs, registers, b, compiled, rendered⟩ := compiled_of_compile compiles
  refine ⟨_, b, compiles, compiled.emitted, rendered, fun overflow trace ending runs =>
    compiled.runs (fun f mem => ?_) runs⟩
  have other := (names f mem).2
  simp only [mem_cons, not_mem_nil, not_or, or_false] at other ⊢
  exact ⟨other.1, other.2.2⟩

/-- The countdown prints three, two and one, and then exits. -/
theorem Program.countdown_runs :
    (∀ f ∈ countdown.functions, isIdentifier f.name = true ∧
      f.name ∉ ["exit", "printf", zeroDivisionHandler]) ∧
      countdown.Runs none [.number 3, .number 2, .number 1] (.exited 0) ∧
      ∃ b, countdown.emit {} = .ok b ∧ b.image.Runs none [.number 3, .number 2, .number 1]
        (.exited 0) := by
  have names : ∀ f ∈ countdown.functions,
      isIdentifier f.name = true ∧ f.name ∉ ["exit", "printf", zeroDivisionHandler] := by decide
  have runs : countdown.Runs none [.number 3, .number 2, .number 1] (.exited 0) :=
    ⟨9, .inl (by decide +kernel)⟩
  obtain ⟨tree, c, analyzed⟩ := countdown_accepted
  obtain ⟨text, b, -, emitted, -, same⟩ := Program.compile_runs analyzed names
  exact ⟨names, runs, b, emitted, same _ _ _ runs⟩

end Backpatch
