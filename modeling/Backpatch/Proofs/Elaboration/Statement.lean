import Backpatch.Proofs.Elaboration.Expression
import Backpatch.Proofs.Elaboration.Rules

/-!
# Trees of statements

The building of a statement follows its elaboration. The scopes around the statement stay as they
are: what it declares is in the innermost scope, and a scope that is opened is closed again.
-/

namespace Backpatch

open List

/-! ## Scopes -/

section Scopes

variable {e : Env} {t : SymbolTable}

theorem SymbolTable.get?_eq (t : SymbolTable) (name : String) :
    t.get? name = (t.current.get? name).or (t.scopes.tail.findSome? (·.get? name)) := by
  unfold SymbolTable.get? SymbolTable.current
  cases t.scopes with
  | nil => rfl
  | cons scope outer =>
    rw [findSome?_cons]
    show _ = (scope.get? name).or (outer.findSome? _)
    cases scope.get? name <;> rfl

theorem SymbolTable.inLoop_eq (t : SymbolTable) :
    t.inLoop = (t.current.isLoop || t.scopes.tail.any Scope.isLoop) := by
  unfold SymbolTable.inLoop SymbolTable.current
  cases t.scopes <;> rfl

theorem SymbolTable.get?_openScope (isLoop : Bool) (name : String) :
    (t.openScope isLoop).get? name = t.get? name := rfl

theorem SymbolTable.inLoop_openScope (isLoop : Bool) :
    (t.openScope isLoop).inLoop = (t.inLoop || isLoop) := by
  show (isLoop || t.inLoop) = _
  rw [Bool.or_comm]

theorem Env.get?_inner (isLoop : Bool) (name : String) :
    (e.inner isLoop).get? name = e.get? name := by
  unfold Env.get? Env.inner
  rw [nil_append]

theorem Env.Matches.openScope (h : e.Matches t) (isLoop : Bool) :
    (e.inner isLoop).Matches (t.openScope isLoop) where
  get name := by rw [Env.get?_inner, SymbolTable.get?_openScope, h.get name]
  sound name m found := h.sound name m (Env.get?_inner isLoop name ▸ found)
  indexed := Scope.indexed_empty _ _
  declares name := rfl
  inLoop := by
    rw [SymbolTable.inLoop_openScope, h.inLoop]
    rfl
  nextSlot := h.nextSlot

/-- The size of the frame is not the environment's business. -/
theorem Env.Matches.frameSize (h : e.Matches t) (size : Nat) :
    e.Matches { t with frameSize := size } :=
  ⟨h.get, h.sound, h.indexed, h.declares, h.inLoop, h.nextSlot⟩

variable {m : Meaning}

theorem lookup_cons_append (name other : String) (xs ys : List (String × Meaning)) :
    (((other, m) :: xs) ++ ys).lookup name = if name
      = other then some m else (xs ++ ys).lookup name := by
  rw [cons_append, lookup_cons]
  by_cases eq : name = other
  · rw [if_pos eq, beq_iff_eq.mpr eq]
  · rw [if_neg eq, beq_eq_false_iff_ne.mpr eq]

/-- A table whose innermost scope has one more symbol. -/
theorem Env.Matches.insert (h : e.Matches t) (name : String) (sound : m.Sound) (slot : Nat)
    (offset : Int) (size : Nat) :
    Env.Matches
      { e with here := (name, m) :: e.here, nextSlot := slot }
      { t with
        scopes := { t.current.insert (m.symbol name) with
          nextSlot := slot, parameterOffset := offset } :: t.scopes.tail
        frameSize := size } := by
  have named : (m.symbol name).name = name := by cases m <;> rfl
  constructor
  · intro other
    rw [SymbolTable.get?_eq]
    show ((t.current.insert (m.symbol name)).get? other).or (t.scopes.tail.findSome? _) = _
    unfold Env.get?
    rw [h.indexed.get?_insert, named, lookup_cons_append]
    by_cases eq : other = name
    · rw [if_pos eq, if_pos eq, eq]
      rfl
    · rw [if_neg eq, if_neg eq, ← SymbolTable.get?_eq, h.get other]
      rfl
  · intro other m' got
    unfold Env.get? at got
    rw [lookup_cons_append] at got
    by_cases eq : other = name
    · rw [if_pos eq] at got
      exact Option.some.inj got ▸ sound
    · rw [if_neg eq] at got
      exact h.sound other m' got
  · exact h.indexed.insert (m.symbol name)
  · intro other
    show (t.current.insert (m.symbol name)).contains other = _
    rw [Scope.contains_insert, named, h.declares]
    unfold Env.declares
    rw [lookup_cons]
    by_cases eq : other = name
    · rw [decide_eq_true eq, beq_iff_eq.mpr eq]
      rfl
    · rw [decide_eq_false eq, beq_eq_false_iff_ne.mpr eq]
      rfl
  · exact (SymbolTable.inLoop_eq _).trans (t.inLoop_eq.symm.trans h.inLoop)
  · rfl

end Scopes

/-! ## Inside a function -/

open Builder

/-- The signature of the function that is being built. -/
structure Signature where
  name : String
  parameters : List Ty

namespace Builder

/-- The builder is inside a function, where the names are those of the environment and the layout is
the given one. -/
structure Inside (f : Signature) (e : Env) (layout : Layout) (b : Builder) : Prop where
  names : e.Matches b.symbols
  present : b.symbols.scopes ≠ []
  frameSize : b.symbols.frameSize = layout.frameSize
  registers : b.names.registers = layout.registers
  function : b.function = some
    { name := f.name, returnType := e.returnType, parameters := f.parameters
      slots := layout.slots.map (Option.map .temp) }
  parameters : ∀ name type index, e.get? name = some (.parameter type index) →
    index < layout.slots.length

/-- From `b` to `b'` only the innermost scope, the size of the frame, the registers, the slots and
the forest have changed. -/
structure Around (b b' : Builder) : Prop where
  labels : b'.names.labels = b.names.labels
  globals : b'.names.globals = b.names.globals
  outer : b'.symbols.scopes.tail = b.symbols.scopes.tail

theorem Around.refl (b : Builder) : Around b b := ⟨rfl, rfl, rfl⟩

variable {b b' : Builder} {e : Env}

theorem Around.trans {a c : Builder} (ab : Around a b) (bc : Around b c) : Around a c :=
  ⟨bc.labels.trans ab.labels, bc.globals.trans ab.globals, bc.outer.trans ab.outer⟩

theorem Same.around (h : Same b b') : Around b b' := by
  refine ⟨?_, ?_, ?_⟩
  · rw [h.names]
  · rw [h.names]
  · rw [h.symbols]

theorem Inside.same {f : Signature} {layout : Layout} (h : Inside f e layout b) (same : Same b b') :
    Inside f e layout b' where
  names := same.symbols ▸ h.names
  present := same.symbols ▸ h.present
  frameSize := same.symbols ▸ h.frameSize
  registers := same.names ▸ h.registers
  function := same.function.trans h.function
  parameters := h.parameters

/-- A statement has been built since `b`, with the environment and layout after it. -/
structure BuiltStmt (f : Signature) (b : Builder) (n : Node) (b' : Builder)
    (result : Action × Env × Layout) : Prop where
  ready : b.forest.Ready [n] b'.forest
  around : Around b b'
  inside : Inside f result.2.1 result.2.2 b'
  of : result.1.Of n

/-- Statements have been built since `b`, one after the other. -/
structure BuiltStmts (f : Signature) (b : Builder) (ns : List Node) (b' : Builder)
    (result : Actions × Env × Layout) : Prop where
  ready : b.forest.Ready ns b'.forest
  around : Around b b'
  inside : Inside f result.2.1 result.2.2 b'
  of : result.1.Of ns

section Steps

variable {f : Signature} {e : Env} {layout : Layout} {b : Builder}

theorem follows_addStatement {start : Builder} {children : List Node}
    (ready : start.forest.Ready children b.forest) (around : Around start b)
    (inside : Inside f e layout b) {kind : StmtKind} {l : Location} {action : Action}
    (of : ∀ id, action.Of (.mk id l (.statement kind) children)) :
    Follows (addStatement kind l children) b (.ok (action, e, layout)) (BuiltStmt f start) := by
  obtain ⟨id, forest, ran, ready'⟩ := run_add ready (.statement kind) l
  have same : Same b { b with forest := forest } := ⟨rfl, rfl, rfl⟩
  exact ⟨_, _, ran, ready', around.trans same.around, inside.same same, of id⟩

theorem run_openScope (isLoop : Bool) :
    run (openScope isLoop) b = .ok (.ok (), { b with symbols := b.symbols.openScope isLoop }) := rfl

theorem run_closeScope :
    run closeScope b = .ok (.ok (), { b with symbols := b.symbols.closeScope }) := rfl

theorem Inside.openScope (h : Inside f e layout b) (isLoop : Bool) :
    Inside f (e.inner isLoop) layout { b with symbols := b.symbols.openScope isLoop } where
  names := h.names.openScope isLoop
  present := cons_ne_nil _ _
  frameSize := h.frameSize
  registers := h.registers
  function := h.function
  parameters name type index found :=
    h.parameters name type index (Env.get?_inner isLoop name ▸ found)

/-- A scope that is closed leaves no trace but in the layout. -/
theorem Inside.closeScope (h : Inside f e layout b) {isLoop : Bool} {b' : Builder}
    (around : Around { b with symbols := b.symbols.openScope isLoop } b') {e' : Env}
    {layout' : Layout} (inside : Inside f e' layout' b') (hr : e'.returnType = e.returnType)
    (hl : layout'.slots.length = layout.slots.length) :
    Inside f e layout' { b' with symbols := b'.symbols.closeScope } ∧
      Around b { b' with symbols := b'.symbols.closeScope } := by
  have symbols : b'.symbols.closeScope = { b.symbols with frameSize := b'.symbols.frameSize } :=
    SymbolTable.closeScope_of_tail around.outer h.present
  rw [symbols]
  constructor
  · exact
      { names := h.names.frameSize _
        present := h.present
        frameSize := inside.frameSize
        registers := inside.registers
        function := by rw [← hr]; exact inside.function
        parameters := fun name type index found => hl ▸ h.parameters name type index found }
  · exact ⟨around.labels, around.globals, rfl⟩

end Steps

/-- The node of an expression that may be missing. -/
inductive OptionOf : Option Typed → Option Node → Prop
  | none : OptionOf none none
  | some {typed n} (of : Typed.Of typed n) : OptionOf (some typed) (some n)

/-- An expression that may be missing has been built since `b`. -/
structure BuiltOption (b : Builder) (n : Option Node) (b' : Builder) (typed : Option Typed) :
    Prop where
  ready : b.forest.Ready n.toList b'.forest
  same : Same b b'
  of : OptionOf typed n

theorem follows_buildOption (h : e.Matches b.symbols) (x : Option Expr) :
    Follows (Expr.buildOption x) b (Expr.elaborateOption e x) (BuiltOption b) := by
  cases x with
  | none => exact Follows.pure ⟨.nil _, .refl _, .none⟩
  | some x =>
    refine (x.build_follows b h).bind ?_
    intro n b' typed _ built
    exact Follows.pure ⟨built.ready, built.same, .some built.of⟩

section Steps

variable {f : Signature} {e : Env} {layout : Layout} {b : Builder}

variable {value : Option Typed} {n : Option Node}

theorem run_converts (h : OptionOf value n) (type : Ty) :
    run (converts n type) b = .ok (.ok (Typed.converts value type), b) := by
  cases h with
  | none => rfl
  | some of =>
    unfold Builder.converts
    rw [run_bind_ok (run_typeOf of.type? b)]
    rfl

theorem run_returnFits (h : OptionOf value n) (type : Ty) :
    run (returnFits type n) b = .ok (.ok (Typed.returnFits type value), b) := by
  cases h with
  | none => rfl
  | some of =>
    unfold Builder.returnFits Typed.returnFits
    dsimp only
    by_cases hv : type = .void
    · rw [if_pos hv, hv]
      rfl
    · rw [if_neg hv, run_bind_ok (run_typeOf of.type? b), bne_iff_ne.mpr hv, Bool.true_and]
      rfl

/-- A new variable gets a register and a place in the frame. -/
theorem follows_declare (h : Inside f e layout b) {name : String} {type : Ty}
    (storable : type.isSpecial = false) (l : Location) {α γ : Type} {k : Register → Nat → BuildM α}
    {next : Unit → Except Failure γ} {R : α → Builder → γ → Prop}
    (hk : ∀ b', e.declares name = false → b'.forest = b.forest → Around b b' →
      Inside f (e.addVariable name type layout.registers) (layout.addVariable e.nextSlot) b' →
        Follows (k (.temp layout.registers) e.nextSlot) b' (next ()) R) :
    Follows (do
        let pointer ← freshRegister
        let slot ← declare fun symbols => symbols.addVariable name type pointer l
        k pointer slot) b
      (require (!e.declares name) (.redefinition name l) >>= next) R := by
  let pointer : Register := .temp b.names.registers
  let named : Builder := { b with names := b.names.nextRegister }
  have fresh : run freshRegister b = .ok (.ok pointer, named) := rfl
  refine Follows.step fresh ?_
  have contains := h.names.declares name
  cases free : e.declares name with
  | true =>
    rw [free] at contains
    have refused : b.symbols.addVariable name type pointer l = .error (.redefinition name l) := by
      unfold SymbolTable.addVariable SymbolTable.checkFree
      rw [contains]
      rfl
    refine ⟨named, ?_⟩
    rw [run_bind, run_declare_error (b := named) refused]
  | false =>
    rw [free] at contains
    have register : pointer = .temp layout.registers := congrArg Register.temp h.registers
    let m : Meaning := .variable type layout.registers e.nextSlot
    let table : SymbolTable :=
      { b.symbols with
        scopes := { b.symbols.current.insert (m.symbol name) with
          nextSlot := e.nextSlot + 1 } :: b.symbols.scopes.tail
        frameSize := max b.symbols.frameSize (e.nextSlot + 1) }
    have added : b.symbols.addVariable name type pointer l = .ok (e.nextSlot, table) := by
      unfold SymbolTable.addVariable SymbolTable.checkFree SymbolTable.modifyCurrent
      rw [contains, h.names.nextSlot, register]
      rfl
    refine Follows.step (run_declare_ok (b := named) added) ?_
    rw [register]
    refine hk { named with symbols := table } free rfl ⟨rfl, rfl, rfl⟩ ?_
    have sound : m.Sound := storable
    exact
      { names := h.names.insert name sound (e.nextSlot + 1) _ _
        present := cons_ne_nil _ _
        frameSize := congrArg (max · (e.nextSlot + 1)) h.frameSize
        registers := congrArg (· + 1) h.registers
        function := h.function
        parameters := fun other type index found => by
          unfold Env.get? Env.addVariable at found
          rw [lookup_cons_append] at found
          split at found
          · exact absurd found nofun
          · exact h.parameters other type index found }

/-- A parameter that is assigned to gets a place of its own. -/
theorem run_spillParameter (h : Inside f e layout b) {index : Nat}
    (hi : index < layout.slots.length) :
    ∃ b', run (spillParameter index) b = .ok (.ok (), b') ∧ b'.forest = b.forest ∧ Around b b' ∧
      Inside f e (layout.spill index) b' := by
  have slot := getElem?_eq_getElem hi
  have built : (layout.slots.map (Option.map Register.temp))[index]?
      = some ((layout.slots[index]).map Register.temp) := by
    rw [getElem?_map, slot]
    rfl
  generalize layout.slots[index] = own at slot built
  unfold Builder.spillParameter Layout.spill
  rw [run_bind_ok (run_get b), h.function]
  simp only [built]
  cases own with
  | some register =>
    rw [if_neg (by rw [slot]; nofun)]
    exact ⟨b, rfl, rfl, .refl b, h⟩
  | none =>
    rw [if_pos slot]
    refine ⟨_, rfl, rfl, ⟨rfl, rfl, rfl⟩, ?_⟩
    exact
      { names := h.names
        present := h.present
        frameSize := h.frameSize
        registers := congrArg (· + 1) h.registers
        function := by
          have register : Register.temp b.names.registers = .temp layout.registers :=
            congrArg _ h.registers
          simp only [map_set, Option.map_some, ← register]
        parameters := fun name type i found => by
          rw [length_set]
          exact h.parameters name type i found }

end Steps

end Builder

/-! ## Induction -/

section Cases

variable {f : Signature} {e : Env} {layout : Layout} {b : Builder}

variable {n : Node} {typed : Typed} {value : Option Typed}

theorem Builder.follows_assignment (h : Inside f e layout b) {start : Builder}
    (ready : start.forest.Ready [n] b.forest) (around : Around start b) (of : typed.Of n)
    (name : String) (l : Location) :
    Follows (Builder.assignment name n l) b (do
        let (place, type) ← e.resolve name l
        require (typed.type.convertibleTo type) (.typeMismatch l)
        return (.assign place typed.term, e, layout.assign place))
      (BuiltStmt f start) := by
  unfold Builder.assignment
  refine (follows_resolve h.names name).bind ?_
  rintro ⟨_, _⟩ b' ⟨place, type⟩ resolved ⟨found, rfl, storable⟩
  cases found
  refine Follows.step (run_typeOf of.type? b') ?_
  refine Follows.check fun converts => ?_
  have value : typed.term.Of n := by
    refine of.term (Ty.ne_void_of_convertibleTo converts ?_)
    rintro rfl
    cases storable
  rcases Env.resolve_eq_ok resolved with ⟨pointer, offset, rfl, -⟩ | ⟨index, rfl, param⟩
  · exact follows_addStatement ready around h fun _ => .assign value
  · obtain ⟨b'', ran, forest, around', inside⟩ :=
      run_spillParameter h (h.parameters name type index param)
    refine Follows.step ran ?_
    exact follows_addStatement (forest ▸ ready) (around.trans around') inside fun _ => .assign value

theorem Action.of_expression (of : typed.Of n) (id : NodeId) (l : Location) :
    typed.action.Of (.mk id l (.statement .expression) [n]) := by
  cases typed with
  | value type term => exact .drop of.2.2.1 of.1
  | truth test => exact .check of
  | void name arguments =>
    obtain ⟨_, _, _, _, rfl, of⟩ := of
    exact .run of

theorem Action.of_declare {offset pointer : Nat} {name : String} {type : Ty} {n : Option Node}
    (of : OptionOf value n) (storable : type.isSpecial = false)
    (converts : Typed.converts value type = true)
    (id : NodeId) (l : Location) : (Action.declare offset pointer (value.map Typed.term)).Of
      (.mk id l (.statement (.declaration name type offset (.temp pointer))) n.toList) := by
  cases of with
  | none => exact .declare
  | some of =>
    refine .declareWith (of.term (Ty.ne_void_of_convertibleTo converts ?_))
    rintro rfl
    cases storable

theorem Action.of_return {returnType : Ty} {n : Option Node} (of : OptionOf value n)
    (fits : Typed.returnFits returnType value = true) (id : NodeId) (l : Location) :
    (Action.return (value.map Typed.term)).Of (.mk id l (.statement .return) n.toList) := by
  cases of with
  | none => exact .return
  | some of =>
    unfold Typed.returnFits at fits
    rw [Bool.and_eq_true, bne_iff_ne] at fits
    exact .give (of.term (Ty.ne_void_of_convertibleTo fits.2 fits.1))

end Cases

/-- Opens a scope, builds a statement in it, and closes the scope. -/
theorem Builder.follows_scope {f : Signature} {e : Env} {layout : Layout} {b : Builder}
    (h : Inside f e layout b) (isLoop : Bool) {s : Stmt} {α γ : Type} {k : Node → BuildM α}
    {next : Action × Env × Layout → Except Failure γ} {R : α → Builder → γ → Prop}
    (hs : ∀ b, Inside f (e.inner isLoop) layout b →
      Follows s.build b (s.elaborate (e.inner isLoop) layout) (BuiltStmt f b))
    (hk : ∀ n b' a e' layout', b.forest.Ready [n] b'.forest → Around b b' → Inside f e layout' b' →
      a.Of n → Follows (k n) b' (next (a, e', layout')) R) :
    Follows (do
        openScope isLoop
        let n ← s.build
        closeScope
        k n) b
      (s.elaborate (e.inner isLoop) layout >>= next) R := by
  refine Follows.step (run_openScope isLoop) ?_
  refine (hs _ (h.openScope isLoop)).bind ?_
  rintro n b' ⟨a, e', layout'⟩ plan built
  have grown := (Stmt.yields plan).grows
  obtain ⟨inside, around⟩ := h.closeScope built.around built.inside grown.2 grown.1.length
  exact Follows.step run_closeScope (hk n _ a e' layout' built.ready around inside built.of)

mutual

/-- The building of a statement follows its elaboration. -/
theorem Stmt.build_follows {f : Signature} {e : Env} {layout : Layout} :
    ∀ (s : Stmt) (b : Builder), Inside f e layout b →
      Follows s.build b (s.elaborate e layout) (BuiltStmt f b)
  | .declaration l type name x, b, h => by
    unfold Stmt.build Stmt.elaborate
    refine (follows_buildOption h.names x).bind ?_
    intro n b₁ tx _ hx
    refine Follows.check fun storable => ?_
    rw [Bool.not_eq_true'] at storable
    refine Follows.step (run_converts hx.of _) ?_
    refine Follows.check fun converts => ?_
    refine follows_declare (h.same hx.same) storable l fun b₂ free forest around inside => ?_
    exact follows_addStatement (forest ▸ hx.ready) (hx.same.around.trans around) inside
      (Action.of_declare hx.of storable converts · l)
  | .assignment l name x, b, h => by
    unfold Stmt.build Stmt.elaborate
    refine (x.build_follows b h.names).bind ?_
    intro n b₁ tx _ hx
    exact follows_assignment (h.same hx.same) hx.ready hx.same.around hx.of name l
  | .expression l x, b, h => by
    unfold Stmt.build Stmt.elaborate
    refine (x.build_follows b h.names).bind ?_
    intro n b₁ tx _ hx
    exact follows_addStatement hx.ready hx.same.around (h.same hx.same)
      (Action.of_expression hx.of · l)
  | .conditional l x s none, b, h => by
    unfold Stmt.build Stmt.elaborate Stmt.buildElse Stmt.elaborateElse
    refine follows_condition (x.build_follows b h.names) fun n b₁ tx hx bool => ?_
    refine follows_scope (h.same hx.same) false (s.build_follows ·)
      fun m b₂ a _ layout' ready around inside of => ?_
    simp only [pure_bind]
    refine Follows.step (run_expectBool hx.of bool _ b₂) ?_
    exact follows_addStatement (hx.ready.append ready) (hx.same.around.trans around) inside
      fun _ => .when (hx.of.test bool) of
  | .conditional l x s (some s'), b, h => by
    unfold Stmt.build Stmt.elaborate Stmt.buildElse Stmt.elaborateElse
    refine follows_condition (x.build_follows b h.names) fun n b₁ tx hx bool => ?_
    refine follows_scope (h.same hx.same) false (s.build_follows ·)
      fun m b₂ a _ layout' ready around inside of => ?_
    simp only [bind_assoc, pure_bind]
    refine follows_scope inside false (s'.build_follows ·) fun m' b₃ a' _ layout'' ready' around'
      inside' of' => ?_
    refine Follows.step (run_expectBool hx.of bool _ b₃) ?_
    exact follows_addStatement ((hx.ready.append ready).append ready')
      ((hx.same.around.trans around).trans around') inside' fun _ =>
        .either (hx.of.test bool) of of'
  | .loop l x s, b, h => by
    unfold Stmt.build Stmt.elaborate
    refine follows_condition (x.build_follows b h.names) fun n b₁ tx hx bool => ?_
    refine follows_scope (h.same hx.same) true (s.build_follows ·) fun m b₂ a _ layout' ready around
      inside of => ?_
    refine Follows.step (run_expectBool hx.of bool _ b₂) ?_
    exact follows_addStatement (hx.ready.append ready) (hx.same.around.trans around) inside
      fun _ => .loop (hx.of.test bool) of
  | .break l, b, h | .continue l, b, h => by
    unfold Stmt.build Stmt.elaborate
    refine Follows.step (run_get b) ?_
    rw [h.names.inLoop]
    exact Follows.check fun _ => follows_addStatement (.nil _) (.refl _) h fun _ => by constructor
  | .return l x, b, h => by
    unfold Stmt.build Stmt.elaborate
    refine (follows_buildOption h.names x).bind ?_
    intro n b₁ tx _ hx
    have inside := h.same hx.same
    unfold Builder.returnStatement
    refine Follows.step (run_get b₁) ?_
    rw [inside.function]
    refine Follows.step (run_returnFits hx.of _) ?_
    refine Follows.check fun fits => ?_
    exact follows_addStatement hx.ready hx.same.around inside (Action.of_return hx.of fits · l)
  | .block l ss, b, h => by
    unfold Stmt.build Stmt.elaborate
    refine Follows.step (run_openScope false) ?_
    refine (Stmt.buildAll_follows ss _ (h.openScope false)).bind ?_
    rintro ns b' ⟨as, e', layout'⟩ plan built
    have grown := (Stmt.yieldsAll plan).grows
    obtain ⟨inside, around⟩ := h.closeScope built.around built.inside grown.2 grown.1.length
    let closed : Builder := { b' with symbols := b'.symbols.closeScope }
    have ready : b.forest.Ready ns closed.forest := built.ready
    refine Follows.step run_closeScope ?_
    exact follows_addStatement ready around inside fun _ => .block built.of

theorem Stmt.buildAll_follows {f : Signature} {e : Env} {layout : Layout} :
    ∀ (ss : List Stmt) (b : Builder), Inside f e layout b →
      Follows (Stmt.buildAll ss) b (Stmt.elaborateAll ss e layout) (BuiltStmts f b)
  | [], b, h => by
    unfold Stmt.buildAll Stmt.elaborateAll
    exact Follows.pure ⟨.nil _, .refl _, h, .nil⟩
  | s :: ss, b, h => by
    unfold Stmt.buildAll Stmt.elaborateAll
    refine (s.build_follows b h).bind ?_
    rintro n b₁ ⟨a, e₁, layout₁⟩ _ hs
    refine (Stmt.buildAll_follows ss b₁ hs.inside).bind ?_
    rintro ns b₂ ⟨as, e₂, layout₂⟩ _ hss
    exact Follows.pure ⟨hs.ready.append hss.ready, hs.around.trans hss.around, hss.inside,
      .cons hs.of hss.of⟩

end

end Backpatch
