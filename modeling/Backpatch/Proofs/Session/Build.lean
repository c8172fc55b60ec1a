import Backpatch.Proofs.Session.Scopes
import Backpatch.Proofs.Session.Shift

/-!
# Programs behind other nodes

The building of expressions, statements and functions does the same in an empty forest and behind
other nodes (`Builder.Tracks`), whatever the scopes hold that are open. A function leaves nothing
behind but its node and its name.
-/

namespace Backpatch

open List

/-! ## Symbols -/

namespace SymbolTable

/-- The global scope has not forgotten a name. -/
def Keeps (t t' : SymbolTable) : Prop :=
  ∀ name, t.global.contains name = true → t'.global.contains name = true

theorem keeps_adds {t t' : SymbolTable} {symbol : Symbol} {scope : Scope}
    (adds : t.current.Adds symbol scope) (scopes : t'.scopes = scope :: t.scopes.tail) :
    t.Keeps t' := by
  intro name mem
  have inserted := t.current.contains_insert symbol name
  unfold Scope.contains at inserted
  rw [← adds.index] at inserted
  unfold global at *
  rw [scopes]
  unfold current at inserted
  cases all : t.scopes with
  | nil =>
    rw [all] at mem
    cases mem
  | cons first outer =>
    rw [all] at mem inserted
    cases outer with
    | nil => exact inserted.trans (Bool.or_eq_true_iff.mpr (.inr mem))
    | cons => exact mem

theorem keeps_openScope (t : SymbolTable) (isLoop : Bool) : t.Keeps (t.openScope isLoop) := by
  intro name mem
  obtain ⟨scopes, size⟩ := t
  cases scopes with
  | nil => cases mem
  | cons scope outer => exact mem

theorem keeps_closeScope (t : SymbolTable) : t.Keeps t.closeScope := by
  intro name mem
  obtain ⟨scopes, size⟩ := t
  cases scopes with
  | nil => cases mem
  | cons scope outer => cases outer <;> exact mem

variable {t : SymbolTable} {name : String} {l : Location}

/-- The step puts a symbol into the innermost scope, or finds its name taken there. -/
def Declares {α : Type} (t : SymbolTable) (name : String) (l : Location)
    (result : Except SemanticError (α × SymbolTable)) : Prop :=
  ∃ x t', t.Keeps t' ∧ result = if t.current.contains name then .error
    (.redefinition name l) else .ok (x, t')

theorem declares_addVariable (type : Ty) (pointer : Register) :
    t.Declares name l (t.addVariable name type pointer l) := by
  refine ⟨_, _, ?_, addVariable_eq type pointer⟩
  exact keeps_adds (t.current.adds_variable name type pointer) rfl

theorem declares_addParameter (type : Ty) : t.Declares name l (t.addParameter name type l) := by
  refine ⟨_, _, ?_, addParameter_eq type⟩
  exact keeps_adds (t.current.adds_parameter name type) rfl

theorem declares_addFunction (type : Ty) (parameters : List Ty) :
    t.Declares name l (do return ((), ← t.addFunction name type parameters l)) := by
  rw [addFunction_eq]
  refine ⟨(), t.modifyCurrent (·.insert ⟨name, type, 0, .function parameters⟩), ?_, ?_⟩
  · exact keeps_adds (t.current.adds_function name type parameters) rfl
  · split <;> rfl

end SymbolTable

namespace Builder

variable {α : Type} {before : Array (Option NodeId)} {b b' b₀ : Builder} {move : α → α}
  {Q : α → Builder → Prop} {os : List Outline}

/-! ## Steps that make no node -/

variable {nodes : List Node} {k k' : Unit → BuildM α} {name : String}

theorem Grows.then (h : b₀.Grows nodes os b) (h' : b.Grows [] [] b') : b₀.Grows nodes os b' :=
  List.append_nil nodes ▸ List.append_nil os ▸ h.append h'

theorem blind_declares {step : SymbolTable → Except SemanticError (α × SymbolTable)} {l : Location}
    (h : b.symbols.Declares name l (step b.symbols)) :
    Blind before b (declare step) fun _ b' => b.Grows [] [] b' := by
  obtain ⟨x, t, keeps, result⟩ := h
  refine (blind_declare fun e failed => ?_).imp ?_
  -- A declaration fails only for a name that is taken.
  · rw [result] at failed
    split at failed
    · cases failed
      exact SemanticError.ne_missingEntryPoint rfl
    · cases failed
  · rintro y b' ⟨t', declared, rfl⟩
    rw [result] at declared
    split at declared
    · cases declared
    · cases declared
      exact ⟨.nil _, rfl, keeps, rfl, rfl⟩

theorem blind_modifySymbols {f : SymbolTable → SymbolTable} (h : b.symbols.Keeps (f b.symbols)) :
    Blind before b (modifySymbols f) fun _ b' => b.Grows [] [] b' :=
  ⟨rfl, .nil _, rfl, h, rfl, rfl⟩

theorem blind_freshRegister : Blind before b freshRegister fun _ b' => b.Grows [] [] b' :=
  ⟨rfl, .nil _, rfl, fun _ => id, rfl, rfl⟩

theorem blind_setFunction (function : Option OpenFunction) :
    Blind before b (setFunction function) fun _ b' => b' = { b with function := function } :=
  ⟨rfl, rfl⟩

theorem blind_number (type : Ty) (token : String) (largest : Nat) (l : Location) :
    Blind before b (number type token largest l) fun n b' =>
      n = Decimal.value token.toList ∧ b' = b := by
  unfold Blind number
  split
  · exact .check rfl fun _ => tracks_pure rfl ⟨rfl, rfl⟩
  · exact tracks_fault fun _ => Fault.noConfusion

theorem blind_literalValue (l : Location) (source : Literal) :
    Blind before b (literalValue l source) fun value b' => value = source.value ∧ b' = b := by
  cases source with
  | int digits | byte digits =>
    exact (blind_number ..).bind fun _ _ same => tracks_pure rfl ⟨same.1 ▸ rfl, same.2⟩
  | bool value | string text => exact tracks_pure rfl ⟨rfl, rfl⟩

theorem blind_resolve (name : String) (l : Location) :
    Blind before b (resolve name l) fun _ b' => b' = b := by
  refine Tracks.get ?_
  dsimp only [behind]
  split
  · exact tracks_throw rfl
  · split
    · exact tracks_pure rfl rfl
    · split
      · exact tracks_pure rfl rfl
      · exact tracks_fault fun _ => Fault.noConfusion
    · exact tracks_throw rfl

theorem blind_spillParameter (index : Nat) : Blind before b (spillParameter index) fun _ b' =>
    b.Grows [] [] b' := by
  refine Tracks.get ?_
  dsimp only [behind]
  split
  · exact tracks_fault fun _ => Fault.noConfusion
  · split
    · exact tracks_fault fun _ => Fault.noConfusion
    · exact tracks_pure rfl (.refl b)
    · refine blind_freshRegister.bind fun slot b₁ fresh => (blind_setFunction _).imp ?_
      rintro _ _ rfl
      refine fresh.then ⟨.nil _, rfl, fun _ => id, rfl, fresh.inside.symm ▸ ?_⟩
      unfold head
      rw [‹b.function = _›]
      rfl

/-! ## Expressions -/

/-- A node for an expression has been made. -/
def MakesExpression (b : Builder) (o : Outline) (n : Node) (b' : Builder) : Prop :=
  b.Grows [n] [o] b' ∧ n.IsExpression

theorem tracks_addExpression {children : List Node} (grown : b₀.Grows children os b)
    (kind : ExprKind) (type : Ty)
    (l : Location) : Tracks before b (addExpression kind type l children)
      (addExpression kind type l (children.map (Node.shift before.size))) (Node.shift before.size)
      (b₀.MakesExpression (.mk kind.shape l os)) := by
  refine (tracks_add grown _ l).imp fun n b' made => ⟨made.1, type, ?_⟩
  unfold Node.type?
  rw [made.2]

variable {n n' n'' : Node} {l : Location}

theorem Tracks.typeOf {k k' : Ty → BuildM α} (h : n.IsExpression)
    (hk : ∀ type, Tracks before b (k type) (k' type) move Q) :
    Tracks before b (Builder.typeOf n >>= k) (Builder.typeOf (n.shift before.size) >>= k')
      move Q := by
  obtain ⟨type, h⟩ := h
  unfold Builder.typeOf
  rw [Node.type?_shift, h]
  exact hk type

theorem Tracks.expectType {expected : Ty} (h : n.IsExpression)
    (hk : Tracks before b (k ()) (k' ()) move Q) :
    Tracks before b (Builder.expectType n expected l >>= k)
      (Builder.expectType (n.shift before.size) expected l >>= k') move Q := by
  unfold Builder.expectType
  rw [bind_assoc, bind_assoc]
  exact .typeOf h fun _ => .check rfl fun _ => hk

theorem Tracks.expectNumeric (h : n.IsExpression) (hk : Tracks before b (k ()) (k' ()) move Q) :
    Tracks before b (Builder.expectNumeric n l >>= k)
      (Builder.expectNumeric (n.shift before.size) l >>= k') move Q := by
  unfold Builder.expectNumeric
  rw [bind_assoc, bind_assoc]
  exact .typeOf h fun _ => .check rfl fun _ => hk

theorem Tracks.checkCondition (h : n.IsExpression) (hk : Tracks before b (k ()) (k' ()) move Q) :
    Tracks before b (Builder.checkCondition n >>= k) (Builder.checkCondition (n.shift before.size)
      >>= k') move Q := by
  unfold Builder.checkCondition
  rw [Node.location_shift]
  exact .expectType h hk

theorem tracks_argumentsConvert (h : ∀ n ∈ nodes, n.IsExpression) (parameters : List Ty) :
    Tracks before b (argumentsConvert nodes parameters)
      (argumentsConvert (nodes.map (Node.shift before.size)) parameters) id fun _ b' => b' = b := by
  induction nodes generalizing parameters with
  | nil => exact tracks_pure rfl rfl
  | cons n nodes ih =>
    cases parameters with
    | nil => exact tracks_pure rfl rfl
    | cons parameter parameters =>
      refine .typeOf (h n mem_cons_self) fun type => ?_
      split
      · exact ih (fun m mem => h m (mem_cons_of_mem _ mem)) parameters
      · exact tracks_pure rfl rfl

theorem tracks_call (grown : b₀.Grows nodes os b) (h : ∀ n ∈ nodes, n.IsExpression) :
    Tracks before b (call name nodes l) (call name (nodes.map (Node.shift before.size)) l)
      (Node.shift before.size) (b₀.MakesExpression (.mk (.call name) l os)) := by
  refine Tracks.get ?_
  dsimp only [behind]
  split
  · rw [length_map]
    split
    · refine (tracks_argumentsConvert h _).bind ?_
      rintro fits _ rfl
      exact .check rfl fun _ => tracks_addExpression grown ..
    · rw [pure_bind, pure_bind]
      exact .check rfl fun _ => tracks_addExpression grown ..
  · exact tracks_throw rfl

theorem tracks_conditional (grown : b₀.Grows [n, n', n''] os b) (h : n.IsExpression)
    (h' : n'.IsExpression) (h'' : n''.IsExpression) : Tracks before b (conditional n n' n'' l)
      (conditional (n.shift before.size) (n'.shift before.size) (n''.shift before.size) l)
        (Node.shift before.size)
      (b₀.MakesExpression (.mk .choice l os)) :=
  .expectType h <| .typeOf h' fun _ => .typeOf h'' fun _ =>
    .check rfl fun _ => tracks_addExpression grown ..

end Builder

open Builder

section Expressions

variable {before : Array (Option NodeId)}

mutual

theorem Expr.tracks_build : ∀ (e : Expr) (b : Builder),
    Tracks before b e.build e.build (Node.shift before.size) (b.MakesExpression e.outline)
  | .literal l value, b => by
    unfold Expr.build
    refine (blind_literalValue l value).bind ?_
    rintro _ _ ⟨rfl, rfl⟩
    exact tracks_addExpression (.refl _) ..
  | .identifier l name, b => by
    unfold Expr.build
    refine (blind_resolve name l).bind ?_
    rintro r _ rfl
    exact tracks_addExpression (.refl _) ..
  | .call l name arguments, b => by
    unfold Expr.build
    exact (Expr.tracks_buildAll arguments b).bind fun _ _ made => tracks_call made.1 made.2
  | .not l operand, b => by
    unfold Expr.build
    refine (operand.tracks_build b).bind fun _ _ made => ?_
    exact .expectType made.2 (tracks_addExpression made.1 ..)
  | .and l left right, b | .or l left right, b => by
    unfold Expr.build
    refine (left.tracks_build b).bind fun _ b₁ made =>
      (right.tracks_build b₁).bind fun _ _ made' => ?_
    exact .expectType made.2 (.expectType made'.2 (tracks_addExpression (made.1.append made'.1) ..))
  | .arithmetic l operator left right, b => by
    unfold Expr.build
    refine (left.tracks_build b).bind fun _ b₁ made =>
      (right.tracks_build b₁).bind fun _ _ made' => ?_
    exact .expectNumeric made.2 <| .expectNumeric made'.2 <| .typeOf made.2 fun _ =>
      .typeOf made'.2 fun _ =>
      tracks_addExpression (made.1.append made'.1) ..
  | .comparison l operator left right, b => by
    unfold Expr.build
    refine (left.tracks_build b).bind fun _ b₁ made =>
      (right.tracks_build b₁).bind fun _ _ made' => ?_
    exact .expectNumeric made.2 (.expectNumeric made'.2
      (tracks_addExpression (made.1.append made'.1) ..))
  | .cast l target operand, b => by
    unfold Expr.build
    refine (operand.tracks_build b).bind fun _ _ made => .typeOf made.2 fun _ => ?_
    exact .check rfl fun _ => tracks_addExpression made.1 ..
  | .conditional l condition thenValue elseValue, b => by
    unfold Expr.build
    refine (condition.tracks_build b).bind fun _ b₁ made => .checkCondition made.2 ?_
    refine (thenValue.tracks_build b₁).bind fun _ b₂ made' =>
      (elseValue.tracks_build b₂).bind fun _ _ made'' => ?_
    exact tracks_conditional ((made.1.append made'.1).append made''.1) made.2 made'.2 made''.2

theorem Expr.tracks_buildAll : ∀ (es : List Expr) (b : Builder),
    Tracks before b (Expr.buildAll es) (Expr.buildAll es) (map (Node.shift before.size))
      fun ns b' => b.Grows ns (Expr.outlineAll es) b' ∧ ∀ n ∈ ns, n.IsExpression
  | [], b => by
    unfold Expr.buildAll
    exact tracks_pure rfl ⟨.refl b, fun _ mem => absurd mem not_mem_nil⟩
  | e :: es, b => by
    unfold Expr.buildAll
    refine (e.tracks_build b).bind fun n b₁ made =>
      (Expr.tracks_buildAll es b₁).bind fun ns b₂ made' => ?_
    exact tracks_pure rfl ⟨made.1.append made'.1, forall_mem_cons.mpr ⟨made.2, made'.2⟩⟩

end

theorem Expr.tracks_buildOption (e : Option Expr) (b : Builder) :
    Tracks before b (Expr.buildOption e) (Expr.buildOption e) (Option.map (Node.shift before.size))
      fun n b' => b.Grows n.toList (e.toList.map Expr.outline) b' ∧ ∀ m ∈ n, m.IsExpression := by
  cases e with
  | none => exact tracks_pure rfl ⟨.refl b, fun _ mem => absurd mem (Option.not_mem_none _)⟩
  | some e =>
    refine (e.tracks_build b).bind fun n b₁ made => tracks_pure rfl ⟨made.1, ?_⟩
    rintro _ ⟨⟩
    exact made.2

end Expressions

/-! ## Statements -/

namespace Builder

variable {before : Array (Option NodeId)} {b b₀ : Builder} {l : Location} {os : List Outline}

theorem tracks_addStatement {children : List Node} (grown : b₀.Grows children os b)
    (kind : StmtKind) (l : Location) :
    Tracks before b (addStatement kind l children)
      (addStatement kind l (children.map (Node.shift before.size)))
      (Node.shift before.size) fun n b' => b₀.Grows [n] [.mk kind.shape l os] b' :=
  (tracks_add grown _ l).imp fun _ _ made => made.1

variable {value : Option Node} {name : String}

theorem tracks_converts (h : ∀ n ∈ value, n.IsExpression) (type : Ty) :
    Tracks before b (converts value type) (converts (value.map (Node.shift before.size)) type) id
      fun _ b' => b' = b := by
  cases value with
  | none => exact tracks_pure rfl rfl
  | some n => exact .typeOf (h n rfl) fun _ => tracks_pure rfl rfl

theorem tracks_returnFits (h : ∀ n ∈ value, n.IsExpression) (returnType : Ty) :
    Tracks before b (returnFits returnType value)
      (returnFits returnType (value.map (Node.shift before.size))) id fun _ b' => b' = b := by
  cases value with
  | none => exact tracks_pure rfl rfl
  | some n =>
    unfold returnFits
    rw [Option.map_some]
    by_cases void : returnType = .void
    · simp only [if_pos void]
      exact tracks_pure rfl rfl
    · simp only [if_neg void]
      exact .typeOf (h n rfl) fun _ => tracks_pure rfl rfl

theorem toList_map_shift (value : Option Node) (k : Nat) :
    (value.map (Node.shift k)).toList = value.toList.map (Node.shift k) := by
  cases value <;> rfl

theorem tracks_declaration {type : Ty} (grown : b₀.Grows value.toList os b)
    (h : ∀ n ∈ value, n.IsExpression) :
    Tracks before b (declaration type name value l)
      (declaration type name (value.map (Node.shift before.size)) l)
      (Node.shift before.size) fun n b' => b₀.Grows [n] [.mk (.declaration type name) l os] b' := by
  refine .check rfl fun _ => (tracks_converts h type).bind ?_
  rintro fits _ rfl
  refine .check rfl fun _ => ?_
  refine blind_freshRegister.bind fun pointer b₁ fresh => ?_
  refine (blind_declares (SymbolTable.declares_addVariable type pointer)).bind
    fun slot b₂ declared => ?_
  rw [toList_map_shift]
  exact tracks_addStatement ((grown.then fresh).then declared) _ l

theorem tracks_assignment {n : Node} (grown : b₀.Grows [n] os b) (h : n.IsExpression) :
    Tracks before b (assignment name n l) (assignment name (n.shift before.size) l)
      (Node.shift before.size) fun n b' => b₀.Grows [n] [.mk .assignment l os] b' := by
  refine (blind_resolve name l).bind ?_
  rintro ⟨binding, type⟩ _ rfl
  refine .typeOf h fun _ => .check rfl fun _ => ?_
  cases binding with
  | parameter index =>
    exact (blind_spillParameter index).bind fun _ _ spilled =>
      tracks_addStatement (grown.then spilled) ..
  | «local» pointer => exact tracks_addStatement grown ..

theorem tracks_returnStatement (grown : b₀.Grows value.toList os b)
    (h : ∀ n ∈ value, n.IsExpression) :
    Tracks before b (returnStatement value l)
      (returnStatement (value.map (Node.shift before.size)) l)
      (Node.shift before.size) fun n b' => b₀.Grows [n] [.mk .return l os] b' := by
  refine Tracks.get ?_
  dsimp only [behind]
  split
  · exact tracks_fault fun _ => Fault.noConfusion
  · refine (tracks_returnFits h _).bind ?_
    rintro fits _ rfl
    rw [toList_map_shift]
    exact .check rfl fun _ => tracks_addStatement grown ..

theorem blind_openScope (isLoop : Bool) : Blind before b (openScope isLoop) fun _ b' =>
    b.Grows [] [] b' :=
  blind_modifySymbols (b.symbols.keeps_openScope isLoop)

theorem blind_closeScope : Blind before b closeScope fun _ b' => b.Grows [] [] b' :=
  blind_modifySymbols b.symbols.keeps_closeScope

end Builder

section Statements

variable {before : Array (Option NodeId)}

mutual

theorem Stmt.tracks_build : ∀ (s : Stmt) (b : Builder),
    Tracks before b s.build s.build (Node.shift before.size) fun n b' => b.Grows [n] [s.outline] b'
  | .declaration l type name initializer, b => by
    unfold Stmt.build
    exact (Expr.tracks_buildOption initializer b).bind fun _ _ made =>
      tracks_declaration made.1 made.2
  | .assignment l name value, b => by
    unfold Stmt.build
    exact (value.tracks_build b).bind fun _ _ made => tracks_assignment made.1 made.2
  | .expression l value, b => by
    unfold Stmt.build
    exact (value.tracks_build b).bind fun _ _ made => tracks_addStatement made.1 ..
  | .conditional l condition thenBranch elseBranch, b => by
    unfold Stmt.build
    refine (condition.tracks_build b).bind fun n b₁ made => .checkCondition made.2 ?_
    refine (blind_openScope false).bind fun _ b₂ opened =>
      (thenBranch.tracks_build b₂).bind fun n' b₃ made' => ?_
    refine blind_closeScope.bind fun _ b₄ closed =>
      (Stmt.tracks_buildElse elseBranch b₄).bind fun n'' b₅ made'' => ?_
    have grown : b.Grows (n :: n' :: n''.toList) (_ :: _ :: Stmt.outlineElse elseBranch) b₅ :=
      ((made.1.then opened).append (made'.then closed)).append made''
    unfold ifStatement
    rw [toList_map_shift]
    exact .checkCondition made.2 (tracks_addStatement grown ..)
  | .loop l condition body, b => by
    unfold Stmt.build
    -- The condition is checked before the body is built, and again when the node is made.
    refine (condition.tracks_build b).bind fun n b₁ made => .checkCondition made.2 ?_
    refine (blind_openScope true).bind fun _ b₂ opened =>
      (body.tracks_build b₂).bind fun n' b₃ made' => ?_
    refine blind_closeScope.bind fun _ b₄ closed => ?_
    exact .checkCondition made.2 (tracks_addStatement
      ((made.1.then opened).append (made'.then closed)) ..)
  | .break l, b | .continue l, b => by
    unfold Stmt.build
    exact .get (.check rfl fun _ => tracks_addStatement (.refl b) ..)
  | .return l value, b => by
    unfold Stmt.build
    exact (Expr.tracks_buildOption value b).bind fun _ _ made =>
      tracks_returnStatement made.1 made.2
  | .block l body, b => by
    unfold Stmt.build
    refine (blind_openScope false).bind fun _ b₁ opened =>
      (Stmt.tracks_buildAll body b₁).bind fun ns b₂ made => ?_
    exact blind_closeScope.bind fun _ b₃ closed =>
      tracks_addStatement ((opened.append made).then closed) ..

theorem Stmt.tracks_buildElse : ∀ (s : Option Stmt) (b : Builder),
    Tracks before b (Stmt.buildElse s) (Stmt.buildElse s) (Option.map (Node.shift before.size))
      fun n b' => b.Grows n.toList (Stmt.outlineElse s) b'
  | none, b => by
    unfold Stmt.buildElse
    exact tracks_pure rfl (.refl b)
  | some s, b => by
    unfold Stmt.buildElse
    refine (blind_openScope false).bind fun _ b₁ opened =>
      (s.tracks_build b₁).bind fun n b₂ made => ?_
    exact blind_closeScope.bind fun _ b₃ closed =>
      tracks_pure rfl ((opened.append made).then closed)

theorem Stmt.tracks_buildAll : ∀ (ss : List Stmt) (b : Builder),
    Tracks before b (Stmt.buildAll ss) (Stmt.buildAll ss) (map (Node.shift before.size))
      fun ns b' => b.Grows ns (Stmt.outlineAll ss) b'
  | [], b => by
    unfold Stmt.buildAll
    exact tracks_pure rfl (.refl b)
  | s :: ss, b => by
    unfold Stmt.buildAll
    refine (s.tracks_build b).bind fun n b₁ made =>
      (Stmt.tracks_buildAll ss b₁).bind fun ns b₂ made' => ?_
    exact tracks_pure rfl (made.append made')

end

end Statements

/-! ## Functions -/

namespace Builder

variable {before : Array (Option NodeId)} {b b₀ : Builder} {l : Location}

theorem blind_checkFormals (formals : List Formal) :
    Blind before b (checkFormals formals) fun _ b' => b' = b := by
  induction formals with
  | nil => exact tracks_pure rfl rfl
  | cons p ps ih => exact .check rfl fun _ => ih

theorem blind_declareFormals (formals : List Formal) :
    Blind before b (declareFormals formals) fun _ b' => b.Grows [] [] b' := by
  induction formals generalizing b with
  | nil => exact tracks_pure rfl (.refl b)
  | cons p ps ih =>
    refine (blind_declares (SymbolTable.declares_addParameter p.type)).bind fun _ b₁ declared => ?_
    exact ih.imp fun _ _ later => declared.then later

/-- The builder when no function is open. -/
def outside (b : Builder) : Builder := { b with function := none }

theorem Grows.outside {ns : List Node} {b' : Builder} (h : b.Grows ns os b') :
    b.outside.Grows ns os b'.outside :=
  ⟨h.ready, h.size, h.kept, h.outlined, rfl⟩

theorem outside_of_function (h : b.function = none) : b.outside = b := by
  unfold outside
  rw [← h]

theorem blind_beginFunction (name : String) (returnType : Ty) (formals : List Formal)
    (l : Location) :
    Blind before b (beginFunction name returnType formals l) fun _ b' => b.Grows [] [] b'.outside ∧
      b'.head = some (name, returnType, formals.map Formal.type) := by
  refine Tracks.get (Tracks.get ?_)
  dsimp only
  have same : ((b.behind before).function.isSome || (b.behind before).symbols.depth != 0)
      = (b.function.isSome || b.symbols.depth != 0) := rfl
  rw [same]
  by_cases nested : (b.function.isSome || b.symbols.depth != 0) = true
  -- A fault ends the building at once, so what comes after it need not track anything.
  · simp only [if_pos nested]
    have never : Blind before b (fault (.nestedFunction name)) fun (_ : Unit) _ => False :=
      tracks_fault fun _ => Fault.noConfusion
    exact never.bind fun _ _ absurd => absurd.elim
  · simp only [if_neg nested]
    have closed : b.function = none := by
      cases isOpen : b.function with
      | none => rfl
      | some function =>
        rw [isOpen] at nested
        exact absurd rfl nested
    refine .check rfl fun _ => (blind_checkFormals formals).bind ?_
    rintro _ _ rfl
    refine (blind_declares (SymbolTable.declares_addFunction returnType _)).bind
      fun _ b₁ declared => ?_
    refine (blind_modifySymbols fun _ => id).bind fun _ b₂ reset =>
      (blind_openScope false).bind fun _ b₃ opened => ?_
    refine (blind_declareFormals formals).bind fun _ b₄ bound => (blind_setFunction _).imp ?_
    rintro _ _ rfl
    have grown := (((declared.then reset).then opened).then bound).outside
    rw [outside_of_function closed] at grown
    exact ⟨grown, rfl⟩

theorem tracks_endFunction {n : Node} {name : String} {returnType : Ty} {parameters : List Ty}
    (grown : b₀.Grows [n] os b.outside) (inside : b.head = some (name, returnType, parameters)) :
    Tracks before b (endFunction n l) (endFunction (n.shift before.size) l) (Node.shift before.size)
      fun n b' => b₀.Grows [n] [.mk (.function name returnType parameters) l os] b' := by
  obtain ⟨function, isOpen, same⟩ := Option.map_eq_some_iff.mp inside
  cases same
  refine Tracks.get ?_
  dsimp only [behind]
  rw [isOpen]
  refine (blind_setFunction none).bind ?_
  rintro _ _ rfl
  refine blind_closeScope.bind fun _ b₂ closed => .get ?_
  exact (tracks_add (grown.then closed) _ l).imp fun _ _ made => made.1

end Builder

section Functions

variable {before : Array (Option NodeId)}

theorem FunctionDef.tracks_build (f : FunctionDef) (b : Builder) :
    Tracks before b f.build f.build (Node.shift before.size) fun n b' =>
      b.Grows [n] [f.outline] b' := by
  refine (blind_beginFunction ..).bind fun _ b₁ begun =>
    (Stmt.tracks_buildAll f.body b₁).bind fun ns b₂ made => ?_
  refine (tracks_addStatement made _ _).bind fun n b₃ made' => ?_
  have inside := made'.inside.trans begun.2
  rw [map_map] at inside
  exact tracks_endFunction (begun.1.append made'.outside) inside

theorem FunctionDef.tracks_buildAll (fs : List FunctionDef) (b : Builder) :
    Tracks before b (FunctionDef.buildAll fs) (FunctionDef.buildAll fs)
      (map (Node.shift before.size)) fun ns b' => b.Grows ns (fs.map FunctionDef.outline) b' := by
  induction fs generalizing b with
  | nil => exact tracks_pure rfl (.refl b)
  | cons f fs ih =>
    refine (f.tracks_build b).bind fun n b₁ made => (ih b₁).bind fun ns b₂ made' =>
      tracks_pure rfl ?_
    exact made.append made'

end Functions

end Backpatch
