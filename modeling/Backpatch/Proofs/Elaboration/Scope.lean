import Backpatch.Proofs.Core.Scope
import Backpatch.Proofs.Elaboration.Rules

/-!
# Scopes of elaborated programs

What the elaboration accepts refers only to what is there (`Stmt.Yields.scoped`): a name stands for
a live variable, for a parameter or for a function declared before it, a variable that is declared
shares its place with no live one, and a parameter that is assigned to has a place in the finished
layout.
-/

namespace Backpatch

open List

/-- The functions that global names stand for. -/
def known (globals : List (String × Meaning)) : Signatures := fun name result parameters =>
  ∃ returnType types, globals.lookup name = some (.function returnType types) ∧
    result = returnType.ir ∧ parameters = types.map Ty.ir

/-! ## Expressions -/

/-- Every place that the expression reads fulfils `P`, and every function that it calls is known. -/
def Typed.All (P : Place → Prop) (Q : Signatures) : Typed → Prop
  | .value _ term => term.All P Q
  | .truth test => test.All P Q
  | .void name arguments => Q name .void arguments.types ∧ arguments.All P Q

/-- What the names of the environment stand for fulfils `P`, or is known. -/
structure Env.Allows (e : Env) (P : Place → Prop) (Q : Signatures) : Prop where
  locals : ∀ name type pointer offset, e.get? name = some (.variable type pointer offset) →
    P (.variable pointer)
  parameters : ∀ name type index, e.get? name = some (.parameter type index) → P (.parameter index)
  functions : ∀ name returnType types, e.get? name = some (.function returnType types) →
    Q name returnType.ir (types.map Ty.ir)

section Expressions

variable {P : Place → Prop} {Q : Signatures}

theorem Typed.All.term {typed : Typed} (h : typed.All P Q) : typed.term.All P Q := by
  cases typed with
  | value type term | truth test => exact h
  | void name arguments => trivial

theorem Typed.All.test {typed : Typed} (h : typed.All P Q) : typed.test.All P Q := by
  cases typed with
  | value type term | void name arguments => trivial
  | truth test => exact h

theorem Typed.all_read {place : Place} (h : P place) (type : Ty) :
    (Typed.read type place).All P Q := by
  unfold Typed.read
  split
  · exact h
  · exact h

theorem Typed.all_arguments {typed : List Typed} (h : ∀ t ∈ typed, t.All P Q) (types : List Ty) :
    (Typed.arguments typed types).All P Q := by
  induction typed generalizing types with
  | nil => trivial
  | cons first rest ih =>
    cases types with
    | nil => trivial
    | cons type types =>
      exact ⟨(h first mem_cons_self).term, ih (fun t ht => h t (mem_cons_of_mem _ ht)) types⟩

/-- Arguments that fit have the types of the parameters. -/
theorem Typed.types_arguments {typed : List Typed} {types : List Ty}
    (h : Typed.fit typed types = true) : (Typed.arguments typed types).types = types.map Ty.ir := by
  induction typed generalizing types with
  | nil =>
    cases types with
    | nil => rfl
    | cons type types => exact absurd h nofun
  | cons first rest ih =>
    cases types with
    | nil => exact absurd h nofun
    | cons type types =>
      unfold Typed.fit at h
      rw [Bool.and_eq_true] at h
      exact congrArg (type.ir :: ·) (ih h.2)

theorem Typed.all_call {name : String} {returnType : Ty} {arguments : Arguments}
    (hq : Q name returnType.ir arguments.types) (h : arguments.All P Q) :
    (Typed.call returnType name arguments).All P Q := by
  unfold Typed.call
  split
  · rename_i void
    rw [void] at hq
    exact ⟨hq, h⟩
  · split
    · rename_i bool
      rw [bool] at hq
      exact ⟨hq, h⟩
    · exact ⟨hq, h⟩

theorem Typed.all_cast {operand : Typed} (h : operand.All P Q) (target : Ty) :
    (Typed.cast target operand).All P Q := by
  unfold Typed.cast
  split
  · exact h.test
  · split
    · exact h.term
    · exact h.term

theorem Typed.all_choice {condition thenValue elseValue : Typed} (hc : condition.All P Q)
    (ht : thenValue.All P Q) (he : elseValue.All P Q) (type : Ty) :
    (Typed.choice type condition thenValue elseValue).All P Q := by
  unfold Typed.choice
  split
  · exact ⟨hc.test, ht.test, he.test⟩
  · exact ⟨hc.test, ht.term, he.term⟩

variable {e : Env}

mutual

/-- An expression refers only to what its environment allows. -/
theorem Expr.Yields.all (he : e.Allows P Q) {x : Expr} {typed : Typed} :
    Expr.Yields e x typed → typed.All P Q
  | .int _ _ | .byte _ _ | .bool | .string => trivial
  | .variable found => Typed.all_read (he.locals _ _ _ _ found) _
  | .parameter found => Typed.all_read (he.parameters _ _ _ found) _
  | .call all found fit =>
    Typed.all_call (Typed.types_arguments fit ▸ he.functions _ _ _ found)
      (Typed.all_arguments (all.all he) _)
  | .not operand _ => (operand.all he).test
  | .and left right _ _ | .or left right _ _ => ⟨(left.all he).test, (right.all he).test⟩
  | .arithmetic left right _ _ | .comparison left right _ _ =>
    ⟨(left.all he).term, (right.all he).term⟩
  | .cast operand _ => Typed.all_cast (operand.all he) _
  | .conditional condition _ thenValue elseValue _ _ =>
    Typed.all_choice (condition.all he) (thenValue.all he) (elseValue.all he) _

theorem Expr.YieldsAll.all (he : e.Allows P Q) {xs : List Expr} {typed : List Typed} :
    Expr.YieldsAll e xs typed → ∀ t ∈ typed, t.All P Q
  | .nil => nofun
  | .cons first rest => by
    intro t ht
    rcases mem_cons.mp ht with rfl | ht
    · exact first.all he
    · exact rest.all he t ht

end

end Expressions

/-! ## Statements -/

/-- The frame of a function with this layout. -/
def Layout.frame (layout : Layout) (returnType : Ty) : Frame :=
  { size := layout.frameSize, returnType := returnType,
    slots := layout.slots.map (Option.map .temp) }

/-- Every place of a parameter has a register of its own. -/
structure Layout.Sound (layout : Layout) : Prop where
  low : ∀ (i r : Nat), layout.slots[i]? = some (some r) → r < layout.registers
  distinct : ∀ (i j r : Nat), layout.slots[i]? = some (some r) → layout.slots[j]? = some (some r) →
    i = j

variable {layout : Layout} {index registers registers' limit : Nat} {routines : List Routine}

theorem Layout.Sound.addVariable (h : layout.Sound) (slot : Nat) :
    (layout.addVariable slot).Sound where
  low i r found := Nat.lt_succ_of_lt (h.low i r found)
  distinct := h.distinct

/-- The slots after a parameter got a place. -/
theorem Layout.slots_spill {i r : Nat} (h : (layout.spill index).slots[i]? = some (some r)) :
    layout.slots[i]? = some (some r) ∨
      i = index ∧ r = layout.registers ∧ (layout.spill index).registers = layout.registers + 1 := by
  unfold Layout.spill at h ⊢
  split at h
  · rename_i free
    rw [if_pos free]
    by_cases eq : index = i
    · subst eq
      have range : index < layout.slots.length := (List.getElem?_eq_some_iff.mp free).1
      have new : some (some layout.registers) = some (some r) :=
        (getElem?_set_self range).symm.trans h
      exact .inr ⟨rfl, (Option.some.inj (Option.some.inj new)).symm, rfl⟩
    · exact .inl ((getElem?_set_ne eq).symm.trans h)
  · exact .inl h

theorem Layout.Sound.spill (h : layout.Sound) (index : Nat) :
    (layout.spill index).Sound where
  low i r found := by
    rcases Layout.slots_spill found with found | ⟨-, rfl, next⟩
    · exact Nat.lt_of_lt_of_le (h.low i r found) (Layout.Grows.spill layout index).registers
    · rw [next]
      exact Nat.lt_succ_self _
  distinct i j r hi hj := by
    rcases Layout.slots_spill hi with oldI | ⟨eqI, newI, -⟩
    · rcases Layout.slots_spill hj with oldJ | ⟨-, newJ, -⟩
      · exact h.distinct i j r oldI oldJ
      · exact absurd (h.low i r oldI) (newJ ▸ Nat.lt_irrefl _)
    · rcases Layout.slots_spill hj with oldJ | ⟨eqJ, -, -⟩
      · exact absurd (h.low j r oldJ) (newI ▸ Nat.lt_irrefl _)
      · exact eqI.trans eqJ.symm

theorem Layout.Sound.assign (h : layout.Sound) (place : Place) : (layout.assign place).Sound := by
  cases place with
  | «variable» pointer => exact h
  | parameter index => exact h.spill index

theorem Layout.stored_spill (h : index < layout.slots.length) :
    ∃ r, (layout.spill index).slots[index]? = some (some r) := by
  unfold Layout.spill
  split
  · exact ⟨layout.registers, getElem?_set_self h⟩
  · rename_i taken
    cases found : layout.slots[index]? with
    | none => exact absurd h (Nat.not_lt_of_le (List.getElem?_eq_none_iff.mp found))
    | some slot =>
      cases slot with
      | none => exact absurd found taken
      | some r => exact ⟨r, rfl⟩

/-- The names of the environment are live variables, parameters and known functions, and the live
variables are below the registers and places that are handed out next. -/
structure Env.Fits (e : Env) (layout : Layout) (live : Live) (Q : Signatures) : Prop where
  locals : ∀ name type pointer offset, e.get? name = some (.variable type pointer offset) →
    (pointer, offset) ∈ live
  parameters : ∀ name type index, e.get? name = some (.parameter type index) →
    index < layout.slots.length
  functions : ∀ name returnType types, e.get? name = some (.function returnType types) →
    Q name returnType.ir (types.map Ty.ir)
  low : ∀ pointer offset, (pointer, offset) ∈ live → pointer < layout.registers ∧
    offset < e.nextSlot

section Fits

variable {e : Env} {layout last : Layout} {live : Live} {Q : Signatures}

theorem Env.Fits.allows (h : e.Fits layout live Q) (grows : layout.Grows last) (returnType : Ty) :
    e.Allows (Place.Reached (last.frame returnType) live) Q where
  locals name type pointer offset found := ⟨offset, h.locals name type pointer offset found⟩
  parameters name type index found := by
    show index < (last.slots.map (Option.map Register.temp)).length
    rw [length_map, grows.length]
    exact h.parameters name type index found
  functions := h.functions

theorem Env.Fits.grow (h : e.Fits layout live Q) (grows : layout.Grows last) :
    e.Fits last live Q where
  locals := h.locals
  parameters name type index found := grows.length ▸ h.parameters name type index found
  functions := h.functions
  low pointer offset mem :=
    ⟨Nat.lt_of_lt_of_le (h.low pointer offset mem).1 grows.registers, (h.low pointer offset mem).2⟩

theorem Env.Fits.inner (h : e.Fits layout live Q) (isLoop : Bool) :
    (e.inner isLoop).Fits layout live Q where
  locals name type pointer offset found := h.locals name type pointer offset found
  parameters := h.parameters
  functions := h.functions
  low := h.low

theorem Env.inLoop_inner_false : (e.inner false).inLoop = e.inLoop := Bool.or_false _

theorem Env.inLoop_inner_true : (e.inner true).inLoop = true := Bool.or_true _

/-- A name stands for what has been declared last, or for what it stood for before. -/
theorem Env.of_get?_eq_some {e' : Env} {name other : String} {m m' : Meaning}
    (found : e'.get? other = some m')
    (here : e'.here = (name, m) :: e.here) (outer : e'.outer = e.outer) :
    m' = m ∨ e.get? other = some m' := by
  unfold Env.get? at found ⊢
  rw [here, outer, cons_append, lookup_cons] at found
  split at found
  · exact .inl (Option.some.inj found).symm
  · exact .inr found

theorem Env.Fits.addVariable (h : e.Fits layout live Q) (name : String) (type : Ty) :
    (e.addVariable name type layout.registers).Fits (layout.addVariable e.nextSlot)
      ((layout.registers, e.nextSlot) :: live) Q where
  locals other type' pointer offset found := by
    rcases Env.of_get?_eq_some found rfl rfl with eq | found
    · cases eq
      exact mem_cons_self
    · exact mem_cons_of_mem _ (h.locals other type' pointer offset found)
  parameters _ _ _ found :=
    h.parameters _ _ _ ((Env.of_get?_eq_some found rfl rfl).resolve_left Meaning.noConfusion)
  functions _ _ _ found :=
    h.functions _ _ _ ((Env.of_get?_eq_some found rfl rfl).resolve_left Meaning.noConfusion)
  low pointer offset mem := by
    rcases mem_cons.mp mem with eq | mem
    · cases eq
      exact ⟨Nat.lt_succ_self _, Nat.lt_succ_self _⟩
    · have low := h.low pointer offset mem
      exact ⟨Nat.lt_succ_of_lt low.1, Nat.lt_succ_of_lt low.2⟩

/-- The next register and the next place are free for a variable. -/
theorem Env.Fits.free (h : e.Fits layout live Q) (sound : layout.Sound)
    (grows : (layout.addVariable e.nextSlot).Grows last) (returnType : Ty) {limit : Nat}
    (hl : last.registers ≤ limit) :
    live.Free (last.frame returnType) limit layout.registers e.nextSlot where
  inFrame := Int.ofNat_lt.mpr (Nat.lt_of_lt_of_le
    (Nat.lt_of_lt_of_le (Nat.lt_succ_self _) (Nat.le_max_right _ _)) grows.frameSize)
  low := Nat.lt_of_lt_of_le (Nat.lt_of_lt_of_le (Nat.lt_succ_self _) grows.registers) hl
  newPointer o mem := absurd (h.low _ _ mem).1 (Nat.lt_irrefl _)
  newOffset p mem := absurd (h.low _ _ mem).2 (Nat.lt_irrefl _)
  notSlot mem := by
    obtain ⟨slot, mem, eq⟩ := mem_map.mp mem
    obtain ⟨r, rfl, same⟩ := Option.map_eq_some_iff.mp eq
    obtain rfl := Register.temp.inj same
    obtain ⟨i, found⟩ := mem_iff_getElem?.mp mem
    rcases grows.new i _ found with old | new
    · exact absurd (sound.low i _ old) (Nat.lt_irrefl _)
    · exact absurd new.1 (Nat.not_succ_le_self _)

/-- A place that is assigned to can be reached and has an address. -/
theorem Env.Fits.assigned (h : e.Fits layout live Q) {name : String} {l : Location} {place : Place}
    {type : Ty} (resolved : e.resolve name l = .ok (place, type))
    (grows : (layout.assign place).Grows last) (returnType : Ty) :
    place.Reached (last.frame returnType) live ∧ place.Stored (last.frame returnType) := by
  have allows := h.allows ((Layout.Grows.assign layout place).trans grows) returnType
  rcases Env.resolve_eq_ok resolved with ⟨pointer, offset, rfl, found⟩ | ⟨index, rfl, found⟩
  · exact ⟨allows.locals _ _ _ _ found, trivial⟩
  · refine ⟨allows.parameters _ _ _ found, ?_⟩
    obtain ⟨r, spilled⟩ := Layout.stored_spill (h.parameters _ _ _ found)
    refine ⟨.temp r, ?_⟩
    show (last.slots.map (Option.map Register.temp))[index]? = _
    rw [getElem?_map, grows.kept index r spilled]
    rfl

theorem Typed.scoped_action {frame : Frame} {limit : Nat} {typed : Typed}
    (h : typed.All (Place.Reached frame live) Q) (inLoop : Bool) :
    typed.action.Scoped frame limit Q inLoop live ∧ typed.action.declared = [] := by
  cases typed with
  | value type term | truth test | void name arguments => exact ⟨h, rfl⟩

end Fits

/-- What a statement leaves behind it. -/
structure Stmt.Leaves (e : Env) (live : Live) (Q : Signatures) (e' : Env) (layout' : Layout) :
    Prop where
  fits : e'.Fits layout' live Q
  sound : layout'.Sound
  inLoop : e'.inLoop = e.inLoop

section Statements

variable {last : Layout} {limit : Nat} {Q : Signatures}

mutual

/-- A statement refers only to what is there, in the frame of the finished layout. -/
theorem Stmt.Yields.scoped (hl : last.registers ≤ limit) {s : Stmt} {e e' : Env}
    {layout layout' : Layout} {a : Action} {live : Live} :
    Stmt.Yields s e layout a e' layout' → e.Fits layout live Q → layout.Sound → layout'.Grows last →
      a.Scoped (last.frame e.returnType) limit Q e.inLoop live ∧
        Stmt.Leaves e (a.declared ++ live) Q e' layout'
  | .declaration value _ _ _, fits, sound, grows => by
    have free := fits.free sound grows e.returnType hl
    have allows := fits.allows ((Layout.Grows.addVariable _ _).trans grows) e.returnType
    refine ⟨?_, fits.addVariable _ _, sound.addVariable _, rfl⟩
    cases value with
    | none => exact free
    | some value => exact ⟨free, (value.all allows).term⟩
  | .assignment value resolved _, fits, sound, grows => by
    have grown := Layout.Grows.assign layout
    obtain ⟨reached, stored⟩ := fits.assigned resolved grows e.returnType
    refine ⟨⟨reached, stored, (value.all ?_).term⟩, fits.grow (grown _), sound.assign _, rfl⟩
    exact fits.allows ((grown _).trans grows) e.returnType
  | .expression value, fits, sound, grows => by
    have all := value.all (fits.allows grows e.returnType)
    obtain ⟨haction, declared⟩ := Typed.scoped_action all e.inLoop
    rw [declared]
    exact ⟨haction, fits, sound, rfl⟩
  | .when condition _ body, fits, sound, grows => by
    have grown := body.grows.1
    obtain ⟨hbody, leaves⟩ := body.scoped hl (fits.inner false) sound grows
    rw [Env.inLoop_inner_false] at hbody
    have hcondition := condition.all (fits.allows (grown.trans grows) e.returnType)
    exact ⟨⟨hcondition.test, hbody⟩, fits.grow grown, leaves.sound, rfl⟩
  | .either condition _ thenBranch elseBranch, fits, sound, grows => by
    have thenGrown := thenBranch.grows.1
    have elseGrown := elseBranch.grows.1
    have grown := thenGrown.trans elseGrown
    obtain ⟨hthen, thenLeaves⟩ :=
      thenBranch.scoped hl (fits.inner false) sound (elseGrown.trans grows)
    obtain ⟨helse, elseLeaves⟩ :=
      elseBranch.scoped hl ((fits.grow thenGrown).inner false) thenLeaves.sound grows
    rw [Env.inLoop_inner_false] at hthen helse
    have hcondition := condition.all (fits.allows (grown.trans grows) e.returnType)
    exact ⟨⟨hcondition.test, hthen, helse⟩, fits.grow grown, elseLeaves.sound, rfl⟩
  | .loop condition _ body, fits, sound, grows => by
    have grown := body.grows.1
    obtain ⟨hbody, leaves⟩ := body.scoped hl (fits.inner true) sound grows
    rw [Env.inLoop_inner_true] at hbody
    have hcondition := condition.all (fits.allows (grown.trans grows) e.returnType)
    exact ⟨⟨hcondition.test, hbody⟩, fits.grow grown, leaves.sound, rfl⟩
  | .break inLoop, fits, sound, _ | .continue inLoop, fits, sound, _ => ⟨inLoop, fits, sound, rfl⟩
  | .return value fit, fits, sound, grows => by
    refine ⟨?_, fits, sound, rfl⟩
    cases value with
    | none => exact eq_of_beq fit
    | some value =>
      obtain ⟨notVoid, -⟩ := Bool.and_eq_true_iff.mp fit
      exact ⟨bne_iff_ne.mp notVoid, (value.all (fits.allows grows e.returnType)).term⟩
  | .block body, fits, sound, grows => by
    obtain ⟨hbody, sound'⟩ := body.scoped hl (fits.inner false) sound grows
    rw [Env.inLoop_inner_false] at hbody
    exact ⟨hbody, fits.grow body.grows.1, sound', rfl⟩

theorem Stmt.YieldsAll.scoped (hl : last.registers ≤ limit) {ss : List Stmt} {e e' : Env}
    {layout layout' : Layout} {as : Actions} {live : Live} :
    Stmt.YieldsAll ss e layout as e' layout' → e.Fits layout live Q → layout.Sound →
      layout'.Grows last → as.Scoped (last.frame e.returnType) limit Q e.inLoop live ∧ layout'.Sound
  | .nil, _, sound, _ => ⟨trivial, sound⟩
  | .cons first rest, fits, sound, grows => by
    obtain ⟨hfirst, leaves⟩ := first.scoped hl fits sound (rest.grows.1.trans grows)
    obtain ⟨hrest, sound'⟩ := rest.scoped hl leaves.fits leaves.sound grows
    rw [leaves.inLoop, first.grows.2] at hrest
    exact ⟨⟨hfirst, hrest⟩, sound'⟩

end

end Statements

/-! ## Functions -/

/-- A name stands for a parameter in the body of a function, or for what it stood for outside. -/
theorem bindFormals_eq_ok {formals : List Builder.Formal} {e e' : Env}
    (h : bindFormals formals index e = .ok e') :
    e'.returnType = e.returnType ∧ e'.inLoop = e.inLoop ∧ e'.nextSlot = e.nextSlot ∧
      ∀ name m, e'.get? name = some m → e.get? name = some m ∨
        ∃ i p, formals[i]? = some p ∧ m = .parameter p.type (index + i) := by
  induction formals generalizing index e with
  | nil =>
    cases h
    exact ⟨rfl, rfl, rfl, fun _ _ => .inl⟩
  | cons p ps ih =>
    obtain ⟨-, h⟩ := of_require_eq_ok h
    obtain ⟨returnType, inLoop, nextSlot, means⟩ := ih h
    refine ⟨returnType, inLoop, nextSlot, fun name m found => ?_⟩
    rcases means name m found with found | ⟨i, q, there, rfl⟩
    · rcases Env.of_get?_eq_some found rfl rfl with rfl | found
      · exact .inr ⟨0, p, rfl, rfl⟩
      · exact .inl found
    · exact .inr ⟨i + 1, q, there, by rw [Nat.add_assoc, Nat.add_comm 1]⟩

/-- Global names stand for functions. -/
def GlobalNames (globals : List (String × Meaning)) : Prop :=
  ∀ name m, globals.lookup name = some m → ∃ returnType types, m = .function returnType types

theorem GlobalNames.cons {globals : List (String × Meaning)} (h : GlobalNames globals)
    (name : String) (returnType : Ty) (types : List Ty) :
    GlobalNames ((name, .function returnType types) :: globals) := by
  intro other m found
  rw [lookup_cons] at found
  split at found
  · exact ⟨_, _, (Option.some.inj found).symm⟩
  · exact h other m found

theorem Ty.ir?_ne_none {type : Ty} (h : type ≠ .invalid) : type.ir? ≠ none := by
  revert h
  cases type <;> decide

/-- A function that is accepted refers only to itself, to functions before it, and to its own
parameters and variables. -/
theorem FunctionDef.elaborate_scoped {f : FunctionDef} {globals globals' : List (String × Meaning)}
    {routine : Routine} (h : f.elaborate globals registers = .ok (routine, globals', registers'))
    (names : GlobalNames globals) (hl : registers' ≤ limit) :
    registers ≤ registers' ∧ routine.Scoped limit (known globals') := by
  unfold FunctionDef.elaborate at h
  obtain ⟨e, head, h⟩ := of_bind_eq_ok h
  obtain ⟨⟨as, e', layout⟩, body, h⟩ := of_bind_eq_ok h
  cases h
  obtain ⟨result, storable, -, bound⟩ := of_elaborateHead_eq_ok head
  let formals := f.parameters.map Parameter.formal
  let parameters := formals.map Builder.Formal.type
  let start : Layout := { registers := registers, slots := parameters.map fun _ => none }
  let m : Meaning := .function (Ty.ofName f.returnType) parameters
  let Q := known ((f.name, m) :: globals)
  have unspilled : ∀ (i r : Nat), start.slots[i]? ≠ some (some r) := by
    intro i r found
    rw [getElem?_map] at found
    obtain ⟨_, -, eq⟩ := Option.map_eq_some_iff.mp found
    exact absurd eq nofun
  have sound : start.Sound :=
    ⟨fun i r found => absurd found (unspilled i r), fun i _ r found => absurd found (unspilled i r)⟩
  obtain ⟨returnType, inLoop, -, means⟩ := bindFormals_eq_ok bound
  -- Before the first declaration there are only functions and parameters.
  have functions := names.cons f.name (Ty.ofName f.returnType) parameters
  have inside : e.Fits start [] Q := by
    refine ⟨fun name type pointer offset found => ?_, fun name type index found => ?_,
      fun name returnType types found => ?_, nofun⟩
    · rcases means _ _ found with found | ⟨_, _, -, eq⟩
      · obtain ⟨_, _, eq⟩ := functions name _ found
        cases eq
      · cases eq
    · rcases means _ _ found with found | ⟨i, p, there, eq⟩
      · obtain ⟨_, _, eq⟩ := functions name _ found
        cases eq
      · cases eq
        rw [Nat.zero_add, length_map, length_map]
        exact (List.getElem?_eq_some_iff.mp there).1
    · rcases means _ _ found with found | ⟨_, _, -, eq⟩
      · exact ⟨returnType, types, found, rfl, rfl⟩
      · cases eq
  have yields := Stmt.yieldsAll body
  have grows := yields.grows.1
  obtain ⟨hbody, sound'⟩ := yields.scoped hl inside sound (.refl layout)
  rw [returnType, inLoop] at hbody
  rw [Bool.and_eq_true, bne_iff_ne, bne_iff_ne] at result
  refine ⟨grows.registers, Ty.ir?_ne_none result.2, ?_, ?_, ?_, sound'.distinct, hbody⟩
  · intro type mem
    obtain ⟨p, hp, rfl⟩ := mem_map.mp mem
    refine Ty.ir?_ne_none fun invalid => ?_
    have special := storable p hp
    rw [invalid] at special
    exact absurd special nofun
  · exact grows.length.trans (length_map _)
  · exact fun i r found => Nat.lt_of_lt_of_le (sound'.low i r found) hl

/-! ## Programs -/

/-- Functions one after the other: each has a new name, and refers only to what is before it. -/
inductive Routine.Chain (limit : Nat) : List (String × Meaning) → List Routine →
    List (String × Meaning) → Prop
  | nil {globals} : Chain limit globals [] globals
  | cons {globals f fs last} (free : globals.lookup f.name = none)
      (body : f.Scoped limit (known (f.entry :: globals)))
      (rest : Chain limit (f.entry :: globals) fs last) : Chain limit globals (f :: fs) last

theorem Routine.Chain.scoped {globals last : List (String × Meaning)} {fs : List Routine}
    (h : Routine.Chain limit globals fs last) : ∀ f ∈ fs, ∃ Q, f.Scoped limit Q := by
  induction h with
  | nil => exact forall_mem_nil _
  | cons _ body _ ih => exact forall_mem_cons.mpr ⟨⟨_, body⟩, ih⟩

theorem FunctionDef.YieldsAll.chain {fs : List FunctionDef} {globals last : List (String × Meaning)}
    (h : FunctionDef.YieldsAll fs globals registers routines last registers')
    (names : GlobalNames globals) (hl : registers' ≤ limit) :
    registers ≤ registers' ∧ Routine.Chain limit globals routines last := by
  induction h with
  | nil => exact ⟨Nat.le_refl _, .nil⟩
  | cons first declares rest ih =>
    obtain ⟨grown, chain⟩ := ih (names.cons _ _ _) hl
    obtain ⟨start, body⟩ := FunctionDef.elaborate_scoped first names (Nat.le_trans grown hl)
    exact ⟨Nat.le_trans start grown, .cons declares.free body chain⟩

theorem globalNames_runtime : GlobalNames runtimeNames := by
  intro name m found
  rcases lookup_runtimeNames found with ⟨-, rfl⟩ | ⟨-, rfl⟩ <;> exact ⟨_, _, rfl⟩

/-- The functions of a program that is accepted, and its entry point. -/
theorem Program.elaborate_chain {p : Program} (h : p.elaborate = .ok (routines, registers)) :
    ∃ globals, Routine.Chain registers runtimeNames routines globals ∧
      globals.lookup "main" = some (.function .void []) := by
  obtain ⟨globals, all, entry⟩ := Program.of_elaborate_eq_ok h
  exact ⟨globals, (all.chain globalNames_runtime (Nat.le_refl _)).2, entry⟩

end Backpatch
