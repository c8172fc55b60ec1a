import Backpatch.Proofs.Session.Build

/-!
# Failed calls

The operations of a builder as a client calls them, one after the other, with the context that they
share. A call that breaks a rule of the language changes nothing, with two exceptions: a variable
that is declared again has taken a register, and a function that repeats the name of a parameter
stays declared, with the scope of its body open (`Analyzer.perform_failed`).
-/

namespace Backpatch

open List

theorem SymbolTable.error_of_checkFree {α : Type} {t : SymbolTable} {name : String} {l : Location}
    {next : Unit → α} {e : SemanticError}
    (h : (t.checkFree name l >>= fun x => pure (next x)) = .error e) :
    e = .redefinition name l := by
  rw [checkFree_bind] at h
  split at h
  · cases h
    rfl
  · cases h

namespace Builder

variable {α β : Type} {step : BuildM α} {k : α → BuildM β} {b b' : Builder}

variable {e : SemanticError} {name : String} {nextSlot : Nat} {done formals : List Formal}
  {holds : Bool} {l : Location} {outer : List Scope}

/-- A step of two parts fails in the first part or goes on with the second. -/
theorem of_run_bind {r : Except SemanticError β} (h : run (step >>= k) b = .ok (r, b')) :
    (∃ e, r = .error e ∧ run step b = .ok (.error e, b')) ∨
      ∃ x b₁, run step b = .ok (.ok x, b₁) ∧ run (k x) b₁ = .ok (r, b') := by
  rw [run_bind] at h
  cases ran : run step b with
  | error f =>
    rw [ran] at h
    cases h
  | ok q =>
    obtain ⟨result, b₁⟩ := q
    rw [ran] at h
    cases result with
    | error e =>
      cases h
      exact .inl ⟨e, rfl, rfl⟩
    | ok x => exact .inr ⟨x, b₁, rfl, h⟩

theorem of_run_bind_eq_error (h : run (step >>= k) b = .ok (.error e, b')) :
    run step b = .ok (.error e, b') ∨
      ∃ x b₁, run step b = .ok (.ok x, b₁) ∧ run (k x) b₁ = .ok (.error e, b') := by
  rcases of_run_bind h with ⟨_, same, failed⟩ | passed
  · cases same
    exact .inl failed
  · exact .inr passed

theorem of_run_bind_eq_ok {y : β} (h : run (step >>= k) b = .ok (.ok y, b')) :
    ∃ x b₁, run step b = .ok (.ok x, b₁) ∧ run (k x) b₁ = .ok (.ok y, b') := by
  rcases of_run_bind h with ⟨_, same, -⟩ | passed
  · cases same
  · exact passed

/-! ## Steps that change nothing -/

/-- The step changes nothing, however it ends. -/
class Reads (step : BuildM α) : Prop where
  unchanged : ∀ b r b', run step b = .ok (r, b') → b' = b

/-- The step changes nothing if it fails. -/
class Keeps (step : BuildM α) : Prop where
  unchanged : ∀ b e b', run step b = .ok (.error e, b') → b' = b

/-- No rule can be broken in the step. -/
class Unfailing (step : BuildM α) : Prop where
  passes : ∀ b e b', run step b ≠ .ok (.error e, b')

section Reads

variable {x : α}

instance : Reads (pure x) := by
  constructor
  intro b r b' ran
  cases ran
  rfl

instance : Reads (throw e : BuildM α) := by
  constructor
  intro b r b' ran
  cases ran
  rfl

instance {f : Fault} : Reads (fault f : BuildM α) := by
  constructor
  intro b r b' ran
  cases ran

instance : Reads get := by
  constructor
  intro b r b' ran
  cases ran
  rfl

instance Reads.bind [h : Reads step] [hk : ∀ x, Reads (k x)] : Reads (step >>= k) := by
  constructor
  intro b r b' ran
  rcases of_run_bind ran with ⟨e, -, failed⟩ | ⟨x, b₁, first, rest⟩
  · exact h.unchanged b _ b' failed
  · obtain rfl := h.unchanged b _ b₁ first
    exact (hk x).unchanged b₁ r b' rest

instance [Decidable c] [h : Reads step] [h' : Reads step'] : Reads (if c then step else step') := by
  split
  · exact h
  · exact h'

end Reads

section Unfailing

variable {x : α}

instance : Unfailing (pure x) := by
  constructor
  intro b e b' ran
  cases ran

instance {f : Fault} : Unfailing (fault f : BuildM α) := by
  constructor
  intro b e b' ran
  cases ran

instance : Unfailing get := by
  constructor
  intro b e b' ran
  cases ran

instance : Unfailing freshRegister := by
  constructor
  intro b e b' ran
  cases ran

instance {f : SymbolTable → SymbolTable} : Unfailing (modifySymbols f) := by
  constructor
  intro b e b' ran
  cases ran

instance {function : Option OpenFunction} : Unfailing (setFunction function) := by
  constructor
  intro b e b' ran
  cases ran

instance {kind : NodeKind} {children : List Node} : Unfailing (add kind l children) := by
  constructor
  intro b e b' ran
  obtain ⟨n, f, -, failed, -⟩ := of_run_add ran
  cases failed

instance {kind : ExprKind} {type : Ty} {children : List Node} :
    Unfailing (addExpression kind type l children) := by
  unfold addExpression
  infer_instance

instance {kind : StmtKind} {children : List Node} : Unfailing (addStatement kind l children) := by
  unfold addStatement
  infer_instance

instance {isLoop : Bool} : Unfailing (openScope isLoop) := by
  unfold openScope
  infer_instance

instance : Unfailing closeScope := by
  unfold closeScope
  infer_instance

instance Unfailing.bind [h : Unfailing step] [hk : ∀ x, Unfailing (k x)] :
    Unfailing (step >>= k) := by
  constructor
  intro b e b' ran
  rcases of_run_bind_eq_error ran with failed | ⟨x, b₁, -, failed⟩
  · exact h.passes b e b' failed
  · exact (hk x).passes b₁ e b' failed

end Unfailing

section Keeps

instance [h : Reads step] : Keeps step := ⟨fun b e b' ran => h.unchanged b (.error e) b' ran⟩

instance [h : Unfailing step] : Keeps step := ⟨fun b e b' ran => absurd ran (h.passes b e b')⟩

instance [h : Keeps step] [hk : ∀ x, Unfailing (k x)] : Keeps (step >>= k) := by
  constructor
  intro b e b' ran
  rcases of_run_bind_eq_error ran with failed | ⟨x, b₁, -, failed⟩
  · exact h.unchanged b e b' failed
  · exact absurd failed ((hk x).passes b₁ e b')

/-- Something is looked at before anything is changed. -/
instance Keeps.bind [h : Reads step] [hk : ∀ x, Keeps (k x)] : Keeps (step >>= k) := by
  constructor
  intro b e b' ran
  rcases of_run_bind_eq_error ran with failed | ⟨x, b₁, first, failed⟩
  · exact h.unchanged b _ b' failed
  · obtain rfl := h.unchanged b _ b₁ first
    exact (hk x).unchanged b₁ e b' failed

instance {c : Prop} [Decidable c] {step' : BuildM α} [h : Keeps step] [h' : Keeps step'] :
    Keeps (if c then step else step') := by
  split
  · exact h
  · exact h'

end Keeps

theorem check_failed {e' : SemanticError} (h : run (check holds e) b = .ok (.error e', b')) :
    e' = e ∧ b' = b := by
  cases holds <;> cases h
  exact ⟨rfl, rfl⟩

theorem check_passed {x : Unit} (h : run (check holds e) b = .ok (.ok x, b')) :
    holds = true ∧ b' = b := by
  cases holds <;> cases h
  exact ⟨rfl, rfl⟩

theorem declare_failed {step : SymbolTable → Except SemanticError (α × SymbolTable)}
    (h : run (declare step) b = .ok (.error e, b')) : step b.symbols = .error e ∧ b' = b := by
  cases declared : step b.symbols with
  | ok r =>
    rw [run_declare_ok declared] at h
    cases h
  | error e' =>
    rw [run_declare_error declared] at h
    cases h
    exact ⟨rfl, rfl⟩

/-! ## Expressions -/

section Steps

variable {n : Node} {type expected : Ty} {value : Option Node}

instance : Reads (check holds e) := by
  unfold check
  infer_instance

instance : Reads (typeOf n) := by
  unfold typeOf
  split <;> infer_instance

instance : Unfailing (typeOf n) := by
  unfold typeOf
  split <;> infer_instance

instance : Reads (expectType n expected l) := by
  unfold expectType
  infer_instance

instance : Reads (expectNumeric n l) := by
  unfold expectNumeric
  infer_instance

instance : Reads (checkCondition n) := by
  unfold checkCondition
  infer_instance

instance {source : Literal} : Reads (literalValue l source) := by
  cases source <;> unfold literalValue <;> unfold number <;> infer_instance

instance : Reads (resolve name l) := by
  refine @Reads.bind _ _ _ _ inferInstance fun _ => ?_
  split
  · infer_instance
  · split
    · infer_instance
    · split <;> infer_instance
    · infer_instance

instance {arguments : List Node} {parameters : List Ty} :
    Reads (argumentsConvert arguments parameters) := by
  induction arguments generalizing parameters with
  | nil => exact inferInstanceAs (Reads (pure true))
  | cons argument arguments ih => cases parameters <;> unfold argumentsConvert <;> infer_instance

instance {arguments : List Node} : Keeps (call name arguments l) :=
  @Keeps.bind _ _ _ _ inferInstance fun _ => by split <;> infer_instance

/-! ## Statements -/

instance : Reads (converts value type) := by
  cases value <;> unfold converts <;> infer_instance

instance : Unfailing (converts value type) := by
  cases value <;> unfold converts <;> infer_instance

instance : Reads (returnFits type value) := by
  cases value <;> unfold returnFits <;> infer_instance

instance {index : Nat} : Unfailing (spillParameter index) :=
  @Unfailing.bind _ _ _ _ inferInstance fun _ => by
    split
    · infer_instance
    · split <;> infer_instance

instance : Keeps (assignment name n l) := by
  refine @Keeps.bind _ _ _ _ inferInstance fun resolved => ?_
  obtain ⟨binding, type⟩ := resolved
  cases binding <;> infer_instance

instance : Keeps (returnStatement value l) :=
  @Keeps.bind _ _ _ _ inferInstance fun _ => by split <;> infer_instance

instance : Unfailing (endFunction n l) :=
  @Unfailing.bind _ _ _ _ inferInstance fun _ => by split <;> infer_instance

end Steps

/-- The declaration of a variable takes a register before it looks for the name. -/
theorem declaration_failed {type : Ty} {initializer : Option Node}
    (h : run (declaration type name initializer l) b = .ok (.error e, b')) :
    (e = .typeMismatch l ∧ b' = b) ∨
      (e = .redefinition name l ∧ b' = { b with names := b.names.freshRegister.2 }) := by
  unfold declaration at h
  rcases of_run_bind_eq_error h with failed | ⟨_, b₁, first, h₁⟩
  · exact .inl (check_failed failed)
  obtain rfl := Reads.unchanged b _ b₁ first
  rcases of_run_bind_eq_error h₁ with failed | ⟨fits, b₂, second, h₂⟩
  · exact absurd failed (Unfailing.passes b₁ e b')
  obtain rfl := Reads.unchanged b₁ _ b₂ second
  rcases of_run_bind_eq_error h₂ with failed | ⟨_, b₃, third, h₃⟩
  · exact .inl (check_failed failed)
  obtain rfl := Reads.unchanged b₂ _ b₃ third
  rcases of_run_bind_eq_error h₃ with failed | ⟨pointer, b₄, fresh, h₄⟩
  · exact absurd failed (Unfailing.passes b₃ e b')
  cases fresh
  rcases of_run_bind_eq_error h₄ with failed | ⟨slot, b₅, -, h₅⟩
  · obtain ⟨refused, rfl⟩ := declare_failed failed
    exact .inr ⟨SymbolTable.error_of_checkFree refused, rfl⟩
  · exact absurd h₅ (Unfailing.passes b₅ e b')

/-! ## Functions -/

/-- The scope of a function in which these parameters have been declared. -/
def formalScope (nextSlot : Nat) (formals : List Formal) : Scope where
  symbols := formals.mapIdx fun i p => ⟨p.name, p.type, -(i : Int) - 1, .parameter⟩
  index := (formals.mapIdx fun i p => (p.name, i)).reverse
  nextSlot := nextSlot
  parameterOffset := -(formals.length : Int) - 1

theorem contains_formalScope :
    (formalScope nextSlot formals).contains name = true ↔ name ∈ formals.map Formal.name := by
  unfold Scope.contains formalScope
  rw [lookup_isSome_iff, mem_map]
  simp only [mem_reverse, mem_mapIdx, beq_iff_eq]
  constructor
  · rintro ⟨_, ⟨i, bound, rfl⟩, same⟩
    exact ⟨formals[i], getElem_mem bound, same.symm⟩
  · rintro ⟨p, mem, same⟩
    obtain ⟨i, bound, rfl⟩ := getElem_of_mem mem
    exact ⟨_, ⟨i, bound, rfl⟩, same.symm⟩

theorem run_checkFormals (formals : List Formal) (b : Builder) :
    run (checkFormals formals) b = match formals.find? (·.type.isSpecial) with
      | none => .ok (.ok (), b)
      | some p => .ok (.error (.typeMismatch p.location), b) := by
  induction formals with
  | nil => rfl
  | cons p formals ih =>
    unfold checkFormals
    rw [find?_cons]
    cases p.type.isSpecial with
    | true => rfl
    | false => exact ih

theorem addParameter_formalScope {t : SymbolTable}
    (scopes : t.scopes = formalScope nextSlot done :: outer) (p : Formal) :
    t.addParameter p.name p.type p.location
      = if p.name ∈ done.map Formal.name then .error (.redefinition p.name p.location)
        else .ok (done.length,
          { t with scopes := formalScope nextSlot (done ++ [p]) :: outer }) := by
  have current : t.current = formalScope nextSlot done := by
    unfold SymbolTable.current
    rw [scopes]
    rfl
  have added : { (formalScope nextSlot done).insert
      ⟨p.name, p.type, -(done.length : Int) - 1, .parameter⟩ with
      parameterOffset := -(done.length : Int) - 1 - 1 } = formalScope nextSlot (done ++ [p]) := by
    unfold formalScope Scope.insert
    rw [mapIdx_concat, mapIdx_concat, reverse_concat, length_append, length_singleton,
      length_mapIdx]
    have offset : -(done.length : Int) - 1 - 1 = -((done.length + 1 : Nat) : Int) - 1 := by omega
    rw [offset]
  have next : (formalScope nextSlot done).parameterOffset = -(done.length : Int) - 1 := rfl
  rw [SymbolTable.addParameter_eq, current, next, Symbol.parameterIndex_eq]
  by_cases taken : p.name ∈ done.map Formal.name
  · rw [if_pos (contains_formalScope.mpr taken), if_pos taken]
  · rw [if_neg (mt contains_formalScope.mp taken), if_neg taken, ← added]
    unfold SymbolTable.modifyCurrent
    rw [current, scopes]
    rfl

/-- The parameters are declared one after the other, up to the first whose name has been
declared. -/
theorem declareFormals_failed (scopes : b.symbols.scopes = formalScope nextSlot done :: outer)
    (distinct : (done.map Formal.name).Nodup)
    (h : run (declareFormals formals) b = .ok (.error e, b')) :
    ∃ before p after, formals = before ++ p :: after ∧ ((done ++ before).map Formal.name).Nodup ∧
      p.name ∈ (done ++ before).map Formal.name ∧ e = .redefinition p.name p.location ∧
      b' = { b with symbols :=
        { b.symbols with scopes := formalScope nextSlot (done ++ before) :: outer } } := by
  induction formals generalizing b done with
  | nil => cases h
  | cons p formals ih =>
    have result := addParameter_formalScope scopes p
    unfold declareFormals at h
    by_cases taken : p.name ∈ done.map Formal.name
    · rw [if_pos taken] at result
      rw [run_bind, run_declare_error result] at h
      cases h
      refine ⟨[], p, formals, rfl, ?_, ?_, rfl, ?_⟩
      · rw [List.append_nil]
        exact distinct
      · rw [List.append_nil]
        exact taken
      · rw [List.append_nil, ← scopes]
    · rw [if_neg taken] at result
      rw [run_bind_ok (run_declare_ok result)] at h
      have grown : ((done ++ [p]).map Formal.name).Nodup := by
        rw [map_append, nodup_append]
        refine ⟨distinct, pairwise_singleton _ _, ?_⟩
        rintro name mem _ last rfl
        obtain rfl := mem_singleton.mp last
        exact taken mem
      obtain ⟨before, q, after, rfl, nodup, again, error, state⟩ := ih rfl grown h
      rw [append_assoc] at nodup again state
      exact ⟨p :: before, q, after, rfl, nodup, again, error, state⟩

/-- Outside of all functions, the name of a function goes into the global scope. -/
theorem run_declareFunction (depth : b.symbols.depth = 0) (name : String) (returnType : Ty)
    (parameters : List Ty) (l : Location) :
    run (declare fun symbols => do return ((), ← symbols.addFunction name returnType parameters l))
      b = if b.symbols.global.contains name then .ok (.error (.redefinition name l), b)
        else .ok (.ok (), { b with symbols := { b.symbols with scopes :=
          [b.symbols.global.insert ⟨name, returnType, 0, .function parameters⟩] } }) := by
  have tail : b.symbols.scopes.tail = [] := eq_nil_of_length_eq_zero (length_tail.trans depth)
  have current : b.symbols.current = b.symbols.global := by
    unfold SymbolTable.current SymbolTable.global
    cases scopes : b.symbols.scopes with
    | nil => rfl
    | cons scope outer =>
      rw [scopes] at tail
      obtain rfl : outer = [] := tail
      rfl
  have result : b.symbols.addFunction name returnType parameters l = _ :=
    SymbolTable.addFunction_eq returnType parameters
  unfold SymbolTable.modifyCurrent at result
  rw [current, tail] at result
  by_cases taken : b.symbols.global.contains name = true
  · rw [if_pos taken] at result ⊢
    refine run_declare_error ?_
    rw [result]
    rfl
  · rw [if_neg taken] at result ⊢
    refine run_declare_ok ?_
    rw [result]
    rfl

/-- The types in the head of a function can be used, and its name is free. -/
structure HeadPasses (t : SymbolTable) (name : String) (returnType : Ty) (formals : List Formal) :
    Prop where
  result : (returnType != .string && returnType != .invalid) = true
  storable : ∀ p ∈ formals, p.type.isSpecial = false
  free : t.global.contains name = false

/-- The beginning of a function fails at its head, or at the first parameter with the name of an
earlier one. -/
theorem beginFunction_failed {returnType : Ty}
    (h : run (beginFunction name returnType formals l) b = .ok (.error e, b')) :
    (¬ HeadPasses b.symbols name returnType formals ∧ b' = b) ∨
    (HeadPasses b.symbols name returnType formals ∧
      ∃ before p after, formals = before ++ p :: after ∧ (before.map Formal.name).Nodup ∧
      p.name ∈ before.map Formal.name ∧
      e = .redefinition p.name p.location ∧ b.symbols.depth = 0 ∧ b.function = none ∧
      b' = { b with symbols :=
        { scopes := [formalScope b.symbols.global.nextSlot before,
            b.symbols.global.insert ⟨name, returnType, 0, .function (formals.map Formal.type)⟩]
          frameSize := 0 } }) := by
  unfold beginFunction at h
  rw [run_bind_ok (run_get b), run_bind_ok (run_get b)] at h
  by_cases nested : (b.function.isSome || b.symbols.depth != 0) = true
  · simp only [if_pos nested] at h
    cases h
  simp only [if_neg nested] at h
  rw [Bool.or_eq_true, not_or, Option.not_isSome_iff_eq_none, bne_iff_ne, not_not] at nested
  obtain ⟨function, depth⟩ := nested
  rcases of_run_bind_eq_error h with failed | ⟨_, b₁, first, h₁⟩
  · refine .inl ⟨fun passes => ?_, (check_failed failed).2⟩
    rw [passes.result] at failed
    cases failed
  obtain ⟨result, rfl⟩ := check_passed first
  -- The result, the parameters and the name are checked before anything is changed.
  cases special : formals.find? (·.type.isSpecial) with
  | some p =>
    rw [run_bind, run_checkFormals, special] at h₁
    cases h₁
    refine .inl ⟨fun passes => ?_, rfl⟩
    have storable := passes.storable p (mem_of_find?_eq_some special)
    rw [find?_some special] at storable
    cases storable
  | none =>
    have storable : ∀ p ∈ formals, p.type.isSpecial = false := by
      simpa using find?_eq_none.mp special
    rw [run_bind_ok (by rw [run_checkFormals, special])] at h₁
    have declared := run_declareFunction depth name returnType (formals.map Formal.type) l
    cases free : b₁.symbols.global.contains name with
    | true =>
      rw [free, if_pos rfl] at declared
      rw [run_bind, declared] at h₁
      cases h₁
      refine .inl ⟨fun passes => ?_, rfl⟩
      rw [passes.free] at free
      cases free
    | false =>
      rw [free, if_neg Bool.false_ne_true] at declared
      rw [run_bind_ok declared] at h₁
      -- From here on the function is declared, and its scope stays open.
      let opened : Builder := { b₁ with symbols :=
        { scopes := [formalScope b₁.symbols.global.nextSlot [],
            b₁.symbols.global.insert ⟨name, returnType, 0, .function (formals.map Formal.type)⟩] } }
      have inside : run (declareFormals formals >>= fun _ => setFunction _) opened
        = .ok (.error e, b') := h₁
      have scope : opened.symbols.scopes = formalScope b₁.symbols.global.nextSlot [] :: [_] := rfl
      rcases of_run_bind_eq_error inside with failed | ⟨_, b₂, -, h₂⟩
      · obtain ⟨before, p, after, split, distinct, again, error, state⟩ :=
          declareFormals_failed scope nodup_nil failed
        exact .inr ⟨⟨result, storable, free⟩, before, p, after, split, distinct, again, error,
          depth, function, state⟩
      · exact absurd h₂ (Unfailing.passes b₂ e b')

end Builder

/-! ## Calls -/

/-- What a client can ask of a builder. -/
inductive Call
  | literal (source : Literal) (location : Location)
  | identifier (name : String) (location : Location)
  | call (name : String) (arguments : List Node) (location : Location)
  | not (operand : Node) (location : Location)
  | and (left right : Node) (location : Location)
  | or (left right : Node) (location : Location)
  | arithmetic (operator : Arithmetic) (left right : Node) (location : Location)
  | comparison (operator : Comparison) (left right : Node) (location : Location)
  | cast (target : Ty) (operand : Node) (location : Location)
  | conditional (condition thenValue elseValue : Node) (location : Location)
  | checkCondition (condition : Node)
  | declaration (type : Ty) (name : String) (initializer : Option Node) (location : Location)
  | assignment (name : String) (value : Node) (location : Location)
  | expressionStatement (value : Node) (location : Location)
  | ifStatement (condition thenBranch : Node) (elseBranch : Option Node) (location : Location)
  | whileStatement (condition body : Node) (location : Location)
  | breakStatement (location : Location)
  | continueStatement (location : Location)
  | returnStatement (value : Option Node) (location : Location)
  | block (statements : List Node) (location : Location)
  | beginFunction (name : String) (returnType : Ty) (formals : List Builder.Formal)
    (location : Location)
  | endFunction (body : Node) (location : Location)
  | openScope (isLoop : Bool)
  | closeScope
  | finish (functions : List Node)

namespace Call

/-- A call that gives no node. -/
def silent (step : BuildM Unit) : BuildM (Option Node) := do
  step
  return none

/-- A call that gives a node. -/
def made (step : BuildM Node) : BuildM (Option Node) := do
  return some (← step)

/-- The step that the call runs. -/
def step : Call → BuildM (Option Node)
  | literal source l => made (Builder.literal source l)
  | identifier name l => made (Builder.identifier name l)
  | call name arguments l => made (Builder.call name arguments l)
  | not operand l => made (Builder.not operand l)
  | and left right l => made (Builder.and left right l)
  | or left right l => made (Builder.or left right l)
  | arithmetic operator left right l => made (Builder.arithmetic operator left right l)
  | comparison operator left right l => made (Builder.comparison operator left right l)
  | cast target operand l => made (Builder.cast target operand l)
  | conditional condition thenValue elseValue l =>
    made (Builder.conditional condition thenValue elseValue l)
  | checkCondition condition => silent (Builder.checkCondition condition)
  | declaration type name initializer l => made (Builder.declaration type name initializer l)
  | assignment name value l => made (Builder.assignment name value l)
  | expressionStatement value l => made (Builder.expressionStatement value l)
  | ifStatement condition thenBranch elseBranch l =>
    made (Builder.ifStatement condition thenBranch elseBranch l)
  | whileStatement condition body l => made (Builder.whileStatement condition body l)
  | breakStatement l => made (Builder.breakStatement l)
  | continueStatement l => made (Builder.continueStatement l)
  | returnStatement value l => made (Builder.returnStatement value l)
  | block statements l => made (Builder.block statements l)
  | beginFunction name returnType formals l =>
    silent (Builder.beginFunction name returnType formals l)
  | endFunction body l => made (Builder.endFunction body l)
  | openScope isLoop => silent (Builder.openScope isLoop)
  | closeScope => silent Builder.closeScope
  | finish functions => made (Builder.finish functions)

/-- A variable is declared again. -/
def Redeclares : Call → SemanticError → Prop
  | declaration .., .redefinition .. => True
  | _, _ => False

/-- A function has a head that passes, but the name of a parameter is repeated. -/
def RepeatsParameter (t : SymbolTable) : Call → Prop
  | beginFunction name returnType formals _ =>
    Builder.HeadPasses t name returnType formals ∧ ¬ (formals.map Builder.Formal.name).Nodup
  | _ => False

variable {call : Call} {e : SemanticError} {b b' : Builder}

theorem Redeclares.eq (h : call.Redeclares e) :
    ∃ type name initializer l, call = declaration type name initializer l := by
  cases call with
  | declaration type name initializer l => exact ⟨type, name, initializer, l, rfl⟩
  | _ => cases h

theorem RepeatsParameter.eq {t : SymbolTable} (h : call.RepeatsParameter t) :
    ∃ name returnType formals l, call = beginFunction name returnType formals l := by
  cases call with
  | beginFunction name returnType formals l => exact ⟨name, returnType, formals, l, rfl⟩
  | _ => cases h

open Builder

theorem of_made_failed {step : BuildM Node} (h : run (made step) b = .ok (.error e, b')) :
    run step b = .ok (.error e, b') := by
  rcases of_run_bind_eq_error h with failed | ⟨n, b₁, -, failed⟩
  · exact failed
  · cases failed

theorem of_silent_failed {step : BuildM Unit} (h : run (silent step) b = .ok (.error e, b')) :
    run step b = .ok (.error e, b') := by
  rcases of_run_bind_eq_error h with failed | ⟨n, b₁, -, failed⟩
  · exact failed
  · cases failed

/-- All other calls look at everything before they change something. -/
theorem keeps_step
    (noVariable : ∀ type name initializer l, call ≠ declaration type name initializer l)
    (noFunction : ∀ name returnType formals l, call ≠ beginFunction name returnType formals l) :
    ∀ b e b', run call.step b = .ok (.error e, b') → b' = b := by
  suffices Keeps call.step from this.unchanged
  have kept {step : BuildM Node} (h : Keeps step) : Keeps (made step) := by
    unfold made
    infer_instance
  have kept' {step : BuildM Unit} (h : Keeps step) : Keeps (silent step) := by
    unfold silent
    infer_instance
  cases call with
  | declaration type name initializer l => exact absurd rfl (noVariable type name initializer l)
  | beginFunction name returnType formals l =>
    exact absurd rfl (noFunction name returnType formals l)
  | checkCondition | openScope | closeScope => exact kept' inferInstance
  | call | assignment | returnStatement | endFunction => exact kept inferInstance
  | expressionStatement value l =>
    exact kept (inferInstanceAs (Keeps (addStatement .expression l [value])))
  | block statements l => exact kept (inferInstanceAs (Keeps (addStatement .block l statements)))
  | _ => exact kept (@Keeps.bind _ _ _ _ inferInstance fun _ => inferInstance)

end Call

/-- A builder at work: the context that it shares with others, the nodes it has made, and the
function whose body it is in. -/
structure Analyzer where
  context : Context
  forest : Forest := {}
  function : Option OpenFunction := none

namespace Analyzer

def builder (a : Analyzer) : Builder := ⟨a.context.names, a.context.symbols, a.forest, a.function⟩

def after (a : Analyzer) (b : Builder) : Analyzer :=
  ⟨a.context.afterBuilder b, b.forest, b.function⟩

/-- Makes a call. -/
def perform (a : Analyzer) (call : Call) :
    Except Fault (Except SemanticError (Option Node) × Analyzer) := do
  let (result, b) ← Builder.run call.step a.builder
  return (result, a.after b)

theorem after_builder (a : Analyzer) : a.after a.builder = a := rfl

theorem of_perform_failed {a a' : Analyzer} {call : Call} {e : SemanticError}
    (h : a.perform call = .ok (.error e, a')) :
    ∃ b, Builder.run call.step a.builder = .ok (.error e, b) ∧ a' = a.after b := by
  obtain ⟨⟨result, b⟩, ran, done⟩ := of_bind_eq_ok h
  cases done
  exact ⟨b, ran, rfl⟩

/-- A call that breaks a rule changes nothing: not the nodes, the symbols, the open function, the
code written, nor the names given out. Only the variable that is declared again has taken a
register; and the function that repeats the name of a parameter stays declared, with a frame of size
zero and a scope open inside it, which is no loop and has just the parameters before the repeated
one. -/
theorem perform_failed {a a' : Analyzer} {call : Call} {e : SemanticError}
    (failed : a.perform call = .ok (.error e, a')) : (call.Redeclares e →
      a' = { a with context := { a.context with names :=
        { a.context.names with registers := a.context.names.registers + 1 } } }) ∧
    (call.RepeatsParameter a.context.symbols →
      ∃ name returnType before p after l, call
        = .beginFunction name returnType (before ++ p :: after) l ∧
        (before.map Builder.Formal.name).Nodup ∧ p.name ∈ before.map Builder.Formal.name ∧
        e = .redefinition p.name p.location ∧ a.context.symbols.depth = 0 ∧
        a' = { a with
          context := { a.context with symbols :=
            { scopes :=
                [{ symbols := before.mapIdx fun i q => ⟨q.name, q.type, -(i : Int) - 1, .parameter⟩
                   index := (before.mapIdx fun i q => (q.name, i)).reverse
                   nextSlot := a.context.symbols.global.nextSlot
                   parameterOffset := -(before.length : Int) - 1
                   isLoop := false },
                 a.context.symbols.global.insert ⟨name, returnType, 0,
                   .function ((before ++ p :: after).map Builder.Formal.type)⟩]
              frameSize := 0 } }
          function := none }) ∧
    (¬ call.Redeclares e → ¬ call.RepeatsParameter a.context.symbols → a' = a) := by
  obtain ⟨b, ran, rfl⟩ := of_perform_failed failed
  by_cases declaring : ∃ type name initializer l, call = .declaration type name initializer l
  · obtain ⟨type, name, initializer, l, rfl⟩ := declaring
    rcases Builder.declaration_failed (Call.of_made_failed ran) with ⟨rfl, rfl⟩ | ⟨rfl, rfl⟩
    · exact ⟨False.elim, False.elim, fun _ _ => a.after_builder⟩
    · exact ⟨fun _ => rfl, False.elim, fun other => absurd trivial other⟩
  by_cases beginning : ∃ name returnType formals l, call = .beginFunction name returnType formals l
  · obtain ⟨name, returnType, formals, l, rfl⟩ := beginning
    rcases Builder.beginFunction_failed (Call.of_silent_failed ran) with ⟨fails, rfl⟩ |
      ⟨passes, before, p, after, rfl, distinct, again, rfl, depth, function, rfl⟩
    · exact ⟨False.elim, fun repeats => absurd repeats.1 fails, fun _ _ => a.after_builder⟩
    · have none : a.function = none := function
      refine ⟨False.elim, fun _ => ?_, fun _ other => absurd ⟨passes, fun nodup => ?_⟩ other⟩
      · refine ⟨name, returnType, before, p, after, l, rfl, distinct, again, rfl, depth, ?_⟩
        rw [← none]
        rfl
      · rw [map_append, map_cons] at nodup
        exact (nodup_append.mp nodup).2.2 _ again _ mem_cons_self rfl
  · have same := Call.keeps_step (fun type name initializer l eq =>
      declaring ⟨type, name, initializer, l, eq⟩)
      (fun name returnType formals l eq => beginning ⟨name, returnType, formals, l, eq⟩)
        a.builder e b ran
    subst same
    refine ⟨fun redeclares => ?_, fun repeats => ?_, fun _ _ => a.after_builder⟩
    · exact absurd redeclares.eq declaring
    · exact absurd repeats.eq beginning

/-- The head of `void twice(int a, bool b, int a)`. -/
def beginTwice : Call :=
  .beginFunction "twice" .void [⟨.int, "a", .nowhere⟩, ⟨.bool, "b", .nowhere⟩,
    ⟨.int, "a", .nowhere⟩] .nowhere

theorem beginTwice_failed : ∃ a', perform { context := .start {} } beginTwice
      = .ok (.error (.redefinition "a" .nowhere), a') ∧
    beginTwice.RepeatsParameter {} ∧
    a'.context.symbols.global.contains "twice" = true ∧ a'.context.symbols.depth = 1 ∧
      a'.function = none := by
  have ran : perform { context := .start {} } beginTwice
    = .ok (.error (.redefinition "a" .nowhere), _) := rfl
  have repeats : beginTwice.RepeatsParameter {} := ⟨⟨rfl, by decide, rfl⟩, by decide⟩
  obtain ⟨-, excepted, -⟩ := perform_failed ran
  obtain ⟨name, returnType, before, p, after, l, same, -, -, -, -, state⟩ := excepted repeats
  obtain ⟨rfl, -⟩ := Call.beginFunction.inj same
  refine ⟨_, ran, repeats, ?_⟩
  rw [state]
  exact ⟨rfl, rfl, rfl⟩

end Analyzer

end Backpatch
