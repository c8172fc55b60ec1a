import Backpatch.Proofs.Elaboration.Statement
import Backpatch.Proofs.Emission.Function

/-!
# Trees of programs

The checking of a program follows its elaboration (`Program.analyze_follows`): a program is accepted
exactly if it can be elaborated, and then the tree stands for the elaborated functions; otherwise
the error is the same.
-/

namespace Backpatch

open Builder List

/-! ## Parameters -/

theorem Builder.follows_checkFormals (formals : List Formal) (b : Builder) :
    Follows (checkFormals formals) b (requireFormals formals) fun _ b' _ => b' = b := by
  induction formals with
  | nil => exact Follows.pure rfl
  | cons p ps ih => exact Follows.check fun _ => ih

/-- Parameters are in the scope of the function, at their positions. -/
structure Builder.Bound (b : Builder) (count : Nat) (e : Env) (b' : Builder) (e' : Env) : Prop where
  names : e'.Matches b'.symbols
  present : b'.symbols.scopes ≠ []
  outer : b'.symbols.scopes.tail = b.symbols.scopes.tail
  frameSize : b'.symbols.frameSize = b.symbols.frameSize
  others : b' = { b with symbols := b'.symbols }
  returnType : e'.returnType = e.returnType
  parameters : ∀ name type i, e'.get? name = some (.parameter type i) →
    e.get? name = some (.parameter type i) ∨ i < count

theorem Builder.follows_declareFormals {formals : List Formal}
    (storable : ∀ p ∈ formals, p.type.isSpecial = false) {e : Env} {b : Builder}
    (h : e.Matches b.symbols) (present : b.symbols.scopes ≠ []) (count : Nat)
    (next : b.symbols.current.parameterOffset = -(count : Int) - 1) :
    Follows (declareFormals formals) b (bindFormals formals count e)
      fun _ b' e' => Bound b (count + formals.length) e b' e' := by
  induction formals generalizing e b count with
  | nil => exact Follows.pure ⟨h, present, rfl, rfl, rfl, rfl, fun _ _ _ found => .inl found⟩
  | cons p ps ih =>
    have contains := h.declares p.name
    have result : b.symbols.addParameter p.name p.type p.location = _ :=
      SymbolTable.addParameter_eq p.type
    unfold Builder.declareFormals bindFormals
    cases free : e.declares p.name with
    | true =>
      rw [contains, if_pos free] at result
      refine ⟨b, ?_⟩
      rw [run_bind, run_declare_error result]
    | false =>
      rw [contains, free, next, Symbol.parameterIndex_eq] at result
      refine Follows.step (run_declare_ok result) ?_
      let e' : Env := { e with here := (p.name, .parameter p.type count) :: e.here }
      have matched : e'.Matches { b.symbols with scopes := { b.symbols.current.insert
            ⟨p.name, p.type, -(count : Int) - 1, .parameter⟩ with
          parameterOffset := -(count : Int) - 1 - 1 } :: b.symbols.scopes.tail } := by
        show Env.Matches { e with here := _, nextSlot := e.nextSlot } _
        rw [← h.nextSlot]
        exact h.insert (m := .parameter p.type count) p.name (storable p mem_cons_self) _ _ _
      have rest := ih (fun q hq => storable q (mem_cons_of_mem _ hq)) (e := e')
        (b := { b with symbols := _ }) matched (cons_ne_nil _ _) (count + 1) (by
          show -(count : Int) - 1 - 1 = _
          omega)
      refine rest.imp ?_
      rintro - b' e'' ⟨names, present, outer, frameSize, others, returnType, parameters⟩
      refine ⟨names, present, outer, frameSize, ?_, returnType, ?_⟩
      · rw [others]
      · intro name type i found
        rw [length_cons]
        rcases parameters name type i found with found | bound
        · unfold Env.get? at found
          rw [lookup_cons_append] at found
          split at found
          · cases found
            right
            omega
          · exact .inl found
        · right
          omega

/-! ## Functions -/

/-- The builder is between two functions. -/
structure Builder.Between (globals : List (String × Meaning)) (registers : Nat) (b : Builder) :
    Prop where
  function : b.function = none
  scopes : b.symbols.scopes = [b.symbols.global]
  indexed : b.symbols.global.Indexed
  get : ∀ name, b.symbols.global.get? name = (globals.lookup name).map (Meaning.symbol name)
  sound : ∀ name m, globals.lookup name = some m →
    m.Sound ∧ ∃ returnType parameters, m = .function returnType parameters
  outside : b.symbols.global.isLoop = false ∧ b.symbols.global.nextSlot = 0
  names : b.names = { registers := registers }

section Functions

variable {globals : List (String × Meaning)} {registers : Nat} {b : Builder}

variable {name : String} {formals : List Formal} {returnType : Ty}

theorem Builder.Between.current (h : Between globals registers b) :
    b.symbols.current = b.symbols.global := by
  unfold SymbolTable.current
  rw [h.scopes]
  rfl

theorem Builder.Between.contains (h : Between globals registers b) (name : String) :
    b.symbols.global.contains name = (globals.lookup name).isSome := by
  rw [h.indexed.contains_eq, h.get, Option.isSome_map]

theorem Builder.Between.addFunction (h : Between globals registers b)
    (free : globals.lookup name = none) (returnType : Ty) (parameters : List Ty) (l : Location) :
    b.symbols.addFunction name returnType parameters l
      = .ok { b.symbols with scopes :=
        [b.symbols.global.insert ⟨name, returnType, 0, .function parameters⟩] } := by
  unfold SymbolTable.addFunction SymbolTable.checkFree SymbolTable.modifyCurrent
  rw [h.current, h.contains, free, h.scopes]
  rfl

theorem Builder.Between.addFunction_error (h : Between globals registers b) {m : Meaning}
    (taken : globals.lookup name = some m) (returnType : Ty) (parameters : List Ty) (l : Location) :
    b.symbols.addFunction name returnType parameters l = .error (.redefinition name l) := by
  unfold SymbolTable.addFunction SymbolTable.checkFree
  rw [h.current, h.contains, taken]
  rfl

theorem Meaning.sound_function (result : (returnType != .string && returnType != .invalid) = true)
    (storable : ∀ p ∈ formals, p.type.isSpecial = false) :
    (Meaning.function returnType (formals.map Formal.type)).Sound := by
  rw [Bool.and_eq_true, bne_iff_ne, bne_iff_ne] at result
  refine ⟨result.1, result.2, ?_⟩
  intro type mem
  obtain ⟨p, hp, rfl⟩ := mem_map.mp mem
  have special := storable p hp
  constructor
  · intro eq
    rw [eq] at special
    exact absurd special nofun
  · intro eq
    rw [eq] at special
    exact absurd special nofun

/-- All global names are functions, also after one more is declared. -/
theorem Builder.Between.functions (h : Between globals registers b) (returnType : Ty)
    (result : (returnType != .string && returnType != .invalid) = true)
    (storable : ∀ p ∈ formals, p.type.isSpecial = false) (other : String) (m : Meaning)
    (found : ((name, Meaning.function returnType (formals.map Formal.type)) :: globals).lookup other
      = some m) :
    m.Sound ∧ ∃ returnType parameters, m = .function returnType parameters := by
  rw [lookup_cons] at found
  split at found
  · obtain rfl := Option.some.inj found
    exact ⟨Meaning.sound_function result storable, _, _, rfl⟩
  · exact h.sound other m found

theorem Builder.Between.get?_insert (h : Between globals registers b) (name : String)
    (returnType : Ty) (parameters : List Ty) (other : String) :
    (b.symbols.global.insert ⟨name, returnType, 0, .function parameters⟩).get? other
      = (((name, Meaning.function returnType parameters) :: globals).lookup other).map
          (Meaning.symbol other) := by
  rw [h.indexed.get?_insert, lookup_cons]
  by_cases eq : other = name
  · rw [if_pos eq, beq_iff_eq.mpr eq, eq]
    rfl
  · rw [if_neg eq, beq_eq_false_iff_ne.mpr eq, h.get]

/-- A function has been begun: the builder is inside it, and the global scope has its name. -/
structure Builder.Begun (b : Builder) (f : Signature) (returnType : Ty) (registers : Nat)
    (b' : Builder) (e : Env) : Prop where
  inside : Inside f e { registers := registers, slots := f.parameters.map fun _ => none } b'
  forest : b'.forest = b.forest
  outer : b'.symbols.scopes.tail
    = [b.symbols.global.insert ⟨f.name, returnType, 0, .function f.parameters⟩]
  names : b'.names = b.names
  returnType : e.returnType = returnType

theorem Builder.follows_beginFunction (h : Between globals registers b) (name : String)
    (returnType : Ty) (formals : List Formal) (l : Location) :
    Follows (beginFunction name returnType formals l) b
      (elaborateHead name returnType formals l globals)
      fun _ b' e => Begun b ⟨name, formals.map Formal.type⟩ returnType registers b' e := by
  have depth : b.symbols.depth = 0 := by
    unfold SymbolTable.depth
    rw [h.scopes]
    rfl
  unfold Builder.beginFunction elaborateHead
  refine Follows.step (run_get b) ?_
  refine Follows.step (run_get b) ?_
  simp only [h.function, depth, Option.isSome_none, bne_self_eq_false, Bool.or_self]
  refine Follows.check fun result => ?_
  refine (follows_checkFormals formals b).bind ?_
  rintro ⟨⟩ b' ⟨⟩ checked same
  rw [same]
  have storable := requireFormals_eq_ok checked
  let parameters := formals.map Formal.type
  let m : Meaning := .function returnType parameters
  cases free : globals.lookup name with
  | some other =>
    refine ⟨b, ?_⟩
    have refused : (do return ((), ← b.symbols.addFunction name returnType parameters l) :
        Except SemanticError (Unit × SymbolTable)) = .error (.redefinition name l) := by
      rw [h.addFunction_error free]
      rfl
    rw [run_bind, run_declare_error refused]
  | none =>
    let global := b.symbols.global.insert ⟨name, returnType, 0, .function parameters⟩
    let named : SymbolTable := { b.symbols with scopes := [global] }
    have added : (do return ((), ← b.symbols.addFunction name returnType parameters l) :
        Except SemanticError (Unit × SymbolTable)) = .ok ((), named) := by
      rw [h.addFunction free]
      rfl
    -- The function is declared, the frame begins anew, and the scope of the body is opened.
    refine Follows.step (run_declare_ok added) ?_
    let cleared : SymbolTable := { scopes := [global] }
    let opened : Builder := { b with symbols := cleared.openScope false }
    have reset : run (modifySymbols (·.resetFrame)) { b with symbols := named }
        = .ok (.ok (), { b with symbols := cleared }) := rfl
    refine Follows.step reset ?_
    refine Follows.step (run_openScope (b := { b with symbols := cleared }) false) ?_
    let e : Env := { outer := (name, m) :: globals, returnType := returnType }
    have matched : e.Matches opened.symbols := by
      refine ⟨?_, ?_, Scope.indexed_empty _ _, fun _ => rfl, ?_, h.outside.2⟩
      · intro other
        have found := h.get?_insert name returnType parameters other
        show [global].findSome? (·.get? other) = _
        rw [findSome?_singleton]
        exact found
      · exact fun other m' found => (h.functions returnType result storable other m' found).1
      · show (false || (global.isLoop || false)) = false
        rw [show global.isLoop = false from h.outside.1]
        rfl
    refine (follows_declareFormals storable matched (cons_ne_nil _ _) 0 rfl).andThen ?_
    rintro ⟨⟩ b' e' bound
    have names : b'.names = b.names := by rw [bound.others]
    have inside : Inside ⟨name, parameters⟩ e'
        { registers := registers, slots := parameters.map fun _ => none }
        { b' with
          function := some ⟨name, returnType, parameters, parameters.map fun _ => none⟩ } :=
      { names := bound.names
        present := bound.present
        frameSize := bound.frameSize
        registers := by rw [names, h.names]
        function := by
          rw [bound.returnType]
          have unspilled : (parameters.map fun _ => none).map (Option.map Register.temp)
              = parameters.map fun _ => none := map_map
          rw [unspilled]
        parameters := fun other type i found => by
          rw [length_map, length_map]
          rcases bound.parameters other type i found with found | count
          · obtain ⟨-, _, _, eq⟩ := h.functions returnType result storable other _ found
            exact absurd eq nofun
          · exact Nat.zero_add formals.length ▸ count }
    refine ⟨(), _, rfl, inside, ?_, bound.outer, names, bound.returnType⟩
    rw [bound.others]

/-- A function has been built since `b`, and the builder is between two functions again. -/
structure Builder.BuiltFunction (b : Builder) (n : Node) (b' : Builder)
    (result : Routine × List (String × Meaning) × Nat) : Prop where
  ready : b.forest.Ready [n] b'.forest
  between : Between result.2.1 result.2.2 b'
  of : result.1.Of n

/-- After a function the builder is as before it, except that the function can be called. -/
theorem Builder.Between.next (h : Between globals registers b) {l : Location} {e : Env}
    (head : elaborateHead name returnType formals l globals = .ok e) {b₁ b₂ : Builder}
    (begun : Begun b ⟨name, formals.map Formal.type⟩ returnType registers b₁ e)
    (around : Around b₁ b₂) (forest : Forest) :
    Between ((name, .function returnType (formals.map Formal.type)) :: globals) b₂.names.registers
      { b₂ with symbols := b₂.symbols.closeScope, forest := forest, function := none } := by
  obtain ⟨result, storable, free, -⟩ := of_elaborateHead_eq_ok head
  rw [SymbolTable.closeScope_of_tail (around.outer.trans begun.outer) (cons_ne_nil _ _)]
  refine ⟨rfl, rfl, h.indexed.insert _, h.get?_insert name returnType (formals.map Formal.type),
    h.functions returnType result storable, h.outside, ?_⟩
  · have labels : b₂.names.labels = 0 := by rw [around.labels, begun.names, h.names]
    have constants : b₂.names.globals = 0 := by rw [around.globals, begun.names, h.names]
    show (⟨b₂.names.registers, b₂.names.labels, b₂.names.globals⟩ : NameSupply) = _
    rw [labels, constants]

theorem FunctionDef.build_follows (f : FunctionDef) (h : Between globals registers b) :
    Follows f.build b (f.elaborate globals registers) (BuiltFunction b) := by
  let returnType := Ty.ofName f.returnType
  let formals := f.parameters.map Parameter.formal
  unfold FunctionDef.build FunctionDef.elaborate
  refine (follows_beginFunction h f.name returnType formals f.location).bind ?_
  intro _ b₁ e head begun
  refine (Stmt.buildAll_follows f.body b₁ begun.inside).bind ?_
  rintro nodes b₂ ⟨as, e', layout⟩ plan built
  have inside := built.inside
  have result : e'.returnType = returnType := (Stmt.yieldsAll plan).grows.2.trans begun.returnType
  obtain ⟨id, forest, ran, ready⟩ :=
    run_add (begun.forest ▸ built.ready) (.statement .block) f.location
  refine Follows.step ran ?_
  unfold Builder.endFunction
  refine Follows.step (run_get _) ?_
  simp only [inside.function, result]
  let closed : Builder :=
    { b₂ with symbols := b₂.symbols.closeScope, forest := forest, function := none }
  have left : run (setFunction none) { b₂ with forest := forest }
      = .ok (.ok (), { b₂ with forest := forest, function := none }) := rfl
  refine Follows.step left ?_
  have ended : run closeScope { b₂ with forest := forest, function := none }
    = .ok (.ok (), closed) := rfl
  refine Follows.step ended ?_
  refine Follows.step (run_get closed) ?_
  obtain ⟨id', forest', ran', ready'⟩ := run_add (b := closed) ready (.function
    { name := f.name, returnType := returnType, parameters := formals.map Formal.type
      frameSize := closed.symbols.frameSize, slots :=
        layout.slots.map (Option.map .temp) }) f.location
  refine ⟨_, _, ran', ready', ?_, ?_⟩
  · rw [← inside.registers]
    exact h.next head begun built.around forest'
  · have size : closed.symbols.frameSize = layout.frameSize := by
      show b₂.symbols.closeScope.frameSize = _
      rw [SymbolTable.closeScope_eq, ← inside.frameSize]
    rw [size]
    exact ⟨id', f.location, id, f.location, nodes, rfl, built.of⟩

/-- Functions have been built since `b`, one after the other. -/
structure Builder.BuiltFunctions (b : Builder) (ns : List Node) (b' : Builder)
    (result : List Routine × List (String × Meaning) × Nat) : Prop where
  ready : b.forest.Ready ns b'.forest
  between : Between result.2.1 result.2.2 b'
  of : Routine.OfAll result.1 ns

theorem FunctionDef.buildAll_follows (fs : List FunctionDef) (h : Between globals registers b) :
    Follows (FunctionDef.buildAll fs) b (FunctionDef.elaborateAll fs globals registers)
      (BuiltFunctions b) := by
  induction fs generalizing globals registers b with
  | nil => exact Follows.pure ⟨.nil _, h, rfl⟩
  | cons f fs ih =>
    unfold FunctionDef.buildAll FunctionDef.elaborateAll
    refine (f.build_follows h).bind ?_
    rintro n b₁ ⟨routine, globals₁, registers₁⟩ _ first
    refine (ih first.between).bind ?_
    rintro ns b₂ ⟨routines, globals₂, registers₂⟩ _ rest
    exact Follows.pure
      ⟨first.ready.append rest.ready, rest.between, n, ns, rfl, first.of, rest.of⟩

/-! ## Programs -/

theorem Builder.Between.declareRuntime (h : Between globals registers b) {f : RuntimeFunction}
    (free : globals.lookup f.name = none)
    (sound : (Meaning.function f.returnType f.parameters).Sound) :
    ∃ table, declareRuntime b.symbols f = .ok table ∧
      Between ((f.name, .function f.returnType f.parameters) :: globals) registers
        { b with symbols := table } := by
  have contains : b.symbols.global.contains f.name = false := by
    rw [h.contains, free]
    rfl
  refine ⟨{ b.symbols with scopes :=
      [b.symbols.global.insert ⟨f.name, f.returnType, 0, .function f.parameters⟩] }, ?_, h.function,
    rfl, h.indexed.insert _, h.get?_insert f.name f.returnType f.parameters, ?_, h.outside, h.names⟩
  · unfold Builder.declareRuntime
    rw [contains, h.addFunction free]
    rfl
  · intro name m found
    rw [lookup_cons] at found
    split at found
    · exact Option.some.inj found ▸ ⟨sound, _, _, rfl⟩
    · exact h.sound name m found

/-- A fresh builder knows the runtime functions. -/
theorem Builder.start_between : ∃ b, Builder.start {} {} = .ok b ∧ Between runtimeNames 0 b := by
  have empty : Between [] 0 {} :=
    ⟨rfl, rfl, Scope.indexed_empty _ _, fun _ => rfl, nofun, ⟨rfl, rfl⟩, rfl⟩
  obtain ⟨t₁, declared₁, between₁⟩ := empty.declareRuntime
    (f := { name := "print", returnType := .void, parameters := [.string] }) rfl
    (by simp [Meaning.Sound])
  obtain ⟨t₂, declared₂, between₂⟩ := between₁.declareRuntime
    (f := { name := "printi", returnType := .void, parameters := [.int] }) (by decide)
    (by simp [Meaning.Sound])
  refine ⟨_, ?_, between₂⟩
  have folded : runtimeFunctions.foldlM Builder.declareRuntime {} = .ok t₂ := by
    unfold runtimeFunctions
    rw [foldlM_cons, declared₁]
    show foldlM Builder.declareRuntime t₁ _ = _
    rw [foldlM_cons, declared₂]
    rfl
  unfold Builder.start
  rw [folded]
  rfl

theorem Builder.Between.hasEntryPoint (h : Between globals registers b) :
    hasEntryPoint b.symbols = (globals.lookup "main" == some (.function .void [])) := by
  unfold Builder.hasEntryPoint
  rw [h.get]
  cases found : globals.lookup "main" with
  | none => rfl
  | some m =>
    obtain ⟨-, returnType, parameters, rfl⟩ := h.sound _ _ found
    cases returnType <;> cases parameters <;> rfl

/-- A program has been checked: the children of its root stand for the routines, and no two nodes
have the same number. -/
structure Program.Checked (options : Options) (tree : SyntaxTree) (c : Context)
    (result : List Routine × Nat) : Prop where
  root : ∃ root, tree.root = some root ∧ Routine.OfAll result.1 root.children
  names : c.names = { registers := result.2 }
  buffer : c.buffer = (Context.start options).buffer
  numbered : ∀ root, tree.root = some root → root.ids.Nodup

/-- A program is accepted exactly if it can be elaborated, and fails as its elaboration does. -/
theorem Program.analyze_follows (p : Program) (options : Options) :
    match p.elaborate with
    | .ok result => ∃ tree c, p.analyze (.start options) = .ok (.ok tree, c) ∧
        Checked options tree c result
    | .error (.semantic e) => ∃ c, p.analyze (.start options) = .ok (.error e, c)
    | .error (.internal f) => p.analyze (.start options) = .error f := by
  obtain ⟨b, started, between⟩ := Builder.start_between
  have follows : Follows p.build b p.elaborate fun root b' result =>
      Routine.OfAll result.1 root.children ∧ b'.names = { registers := result.2 } ∧
        root.ids.Nodup := by
    unfold Program.build Program.elaborate
    refine (FunctionDef.buildAll_follows p.functions between).bind ?_
    rintro nodes b' ⟨routines, globals, registers⟩ _ built
    refine Follows.step (run_get b') ?_
    rw [built.between.hasEntryPoint]
    refine Follows.check fun _ => ?_
    obtain ⟨id, forest, ran, ready⟩ := run_add built.ready .root .nowhere
    refine ⟨_, _, ran, built.of, built.between.names, ?_⟩
    rw [Node.ids, ← Node.postorderAll_singleton]
    exact ready.ordered.imp Nat.ne_of_lt
  have analyzed : p.analyze (.start options) = (Builder.run p.build b).map fun r =>
      (r.1.map fun root => { forest := r.2.forest, root := some root },
        (Context.start options).afterBuilder r.2) := by
    unfold Program.analyze Context.builder Context.start
    rw [started]
    rfl
  rw [analyzed]
  cases elaborated : p.elaborate with
  | ok result =>
    rw [elaborated] at follows
    obtain ⟨root, b', ran, of, names, numbered⟩ := follows
    rw [ran]
    refine ⟨_, _, rfl, ⟨root, rfl, of⟩, names, rfl, fun other eq => ?_⟩
    cases eq
    exact numbered
  | error failure =>
    rw [elaborated] at follows
    cases failure with
    | semantic e =>
      obtain ⟨b', ran⟩ := follows
      rw [ran]
      exact ⟨_, rfl⟩
    | internal f =>
      have ran : run p.build b = .error f := follows
      rw [ran]
      rfl

end Functions

end Backpatch
