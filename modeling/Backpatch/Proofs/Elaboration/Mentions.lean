import Backpatch.Proofs.Elaboration.Types

/-!
# Mentions of parameters

Where the body of a function reads a parameter or assigns to it, by the scopes of the source: a name
stands for a parameter unless a declaration before it, in a block around it, hides the parameter.
The nodes of the tree that are bound to parameters are these mentions in their order, and a
parameter gets a place of its own if and only if it is assigned to somewhere in the body
(`FunctionDef.elaborate_mentions`).
-/

namespace Backpatch

/-! ## Mentions in the source -/

/-- A use of a parameter. -/
inductive Mention
  | read (index : Nat)
  | assign (index : Nat)
  deriving DecidableEq

/-- The names in scope, the innermost first, with the indices of those that are parameters. -/
abbrev Indices := List (String × Option Nat)

/-- The position of the parameter that the name stands for, if it stands for one. -/
def Indices.find? (x : Indices) (name : String) : Option Nat := (x.lookup name).join

mutual

/-- The parameters that an expression reads, in order. -/
def Expr.reads (x : Indices) : Expr → List Nat
  | .literal .. => []
  | .identifier _ name => (x.find? name).toList
  | .call _ _ arguments => Expr.readsAll x arguments
  | .not _ operand | .cast _ _ operand => operand.reads x
  | .and _ left right | .or _ left right | .arithmetic _ _ left right | .comparison _ _
      left right =>
    left.reads x ++ right.reads x
  | .conditional _ condition thenValue elseValue =>
    condition.reads x ++ (thenValue.reads x ++ elseValue.reads x)

def Expr.readsAll (x : Indices) : List Expr → List Nat
  | [] => []
  | first :: rest => first.reads x ++ Expr.readsAll x rest

end

/-- The names in scope behind a statement. -/
def Stmt.behind : Stmt → Indices → Indices
  | .declaration _ _ name _, x => (name, none) :: x
  | _, x => x

mutual

/-- The mentions of parameters in a statement, in order. -/
def Stmt.mentions : Stmt → Indices → List Mention
  | .declaration _ _ _ value, x | .return _ value, x => (Expr.readsAll x value.toList).map .read
  | .assignment _ name value, x => (value.reads x).map .read ++ (x.find? name).toList.map .assign
  | .expression _ value, x => (value.reads x).map .read
  | .conditional _ condition body none, x | .loop _ condition body, x =>
    (condition.reads x).map .read ++ body.mentions x
  | .conditional _ condition thenBranch (some elseBranch), x =>
    (condition.reads x).map .read ++ (thenBranch.mentions x ++ elseBranch.mentions x)
  | .break _, _ | .continue _, _ => []
  | .block _ body, x => Stmt.mentionsAll body x

def Stmt.mentionsAll : List Stmt → Indices → List Mention
  | [], _ => []
  | first :: rest, x => first.mentions x ++ Stmt.mentionsAll rest (first.behind x)

end

/-- The mentions of parameters in the body of a function. Of two parameters with one name the later
one would hide the other. -/
def FunctionDef.mentions (f : FunctionDef) : List Mention :=
  Stmt.mentionsAll f.body (f.parameters.zipIdx.map fun q => (q.1.name, some q.2)).reverse

/-! ## Mentions in the tree -/

namespace Node

/-- The use of a parameter that a node is. -/
def mention? (n : Node) : Option Mention :=
  match n.kind with
  | .expression _ (.identifier _ (.parameter index)) => some (.read index)
  | .statement (.assignment (.parameter index)) => some (.assign index)
  | _ => none

/-- The mentions in a tree, each behind those below it. -/
def mentions (n : Node) : List Mention := n.postorder.filterMap mention?

theorem mentions_mk (id : NodeId) (l : Location) (kind : NodeKind) (children : List Node) :
    (mk id l kind children).mentions
      = children.flatMap mentions ++ (mk id l kind children).mention?.toList := by
  unfold mentions
  rw [postorder, postorderAll_eq, List.filterMap_append, List.filterMap_flatMap]
  congr 1

end Node

/-! ## Mentions in core terms -/

def Place.index? : Place → Option Nat
  | .variable _ => none
  | .parameter index => some index

mutual

/-- The parameters that a term reads, in order. -/
def Term.reads : Term → List Nat
  | .number _ | .text _ => []
  | .read place => place.index?.toList
  | .call _ _ arguments => arguments.reads
  | .truth test => test.reads
  | .arithmetic _ _ left right => left.reads ++ right.reads
  | .cut operand | .same operand => operand.reads
  | .choice _ condition thenValue elseValue =>
    condition.reads ++ (thenValue.reads ++ elseValue.reads)

def Test.reads : Test → List Nat
  | .constant _ => []
  | .read place => place.index?.toList
  | .call _ arguments => arguments.reads
  | .not operand | .same operand => operand.reads
  | .and left right | .or left right => left.reads ++ right.reads
  | .compare _ left right => left.reads ++ right.reads
  | .choice condition thenTest elseTest => condition.reads ++ (thenTest.reads ++ elseTest.reads)

def Arguments.reads : Arguments → List Nat
  | .nil => []
  | .cons _ value rest => value.reads ++ rest.reads

end

mutual

/-- The mentions of parameters in an action, in order. -/
def Action.mentions : Action → List Mention
  | .declare _ _ none | .return none | .break | .continue => []
  | .declare _ _ (some value) | .return (some value) | .drop value => value.reads.map .read
  | .assign place value => value.reads.map .read ++ place.index?.toList.map .assign
  | .run _ arguments => arguments.reads.map .read
  | .check condition => condition.reads.map .read
  | .when condition body | .loop condition body => condition.reads.map .read ++ body.mentions
  | .either condition thenBranch elseBranch =>
    condition.reads.map .read ++ (thenBranch.mentions ++ elseBranch.mentions)
  | .block body => body.mentions

def Actions.mentions : Actions → List Mention
  | .nil => []
  | .cons first rest => first.mentions ++ rest.mentions

end

section Nodes

attribute [local simp] Node.mentions_mk Node.mention? Node.kind Term.reads Test.reads
  Action.mentions

mutual

theorem Term.Of.mentions {term : Term} {n : Node} : term.Of n → n.mentions = term.reads.map .read
  | .number _ | .text => rfl
  | @Term.Of.read _ _ _ _ place _ => by cases place <;> rfl
  | .call _ _ _ of => by simp [of.mentions]
  | .truth of => of.mentions
  | .arithmetic _ hx hy => by simp [hx.mentions, hy.mentions]
  | .cut _ hx | .same _ _ _ hx => by simp [hx.mentions]
  | .choice _ _ _ hc hx hy => by simp [hc.mentions, hx.mentions, hy.mentions]

theorem Test.Of.mentions {test : Test} {n : Node} : test.Of n → n.mentions = test.reads.map .read
  | .constant => rfl
  | @Test.Of.read _ _ _ place => by cases place <;> rfl
  | .call of => by simp [of.mentions]
  | .not hx | .same _ hx => by simp [hx.mentions]
  | .and hx hy | .or hx hy | .compare _ _ _ _ hx hy => by simp [hx.mentions, hy.mentions]
  | .choice hc hx hy => by simp [hc.mentions, hx.mentions, hy.mentions]

theorem Arguments.Of.mentions {arguments : Arguments} {nodes : List Node} {parameters : List Ty} :
    arguments.Of nodes parameters → nodes.flatMap Node.mentions = arguments.reads.map .read
  | .nil => rfl
  | .cons _ hx hrest => by
    rw [List.flatMap_cons, hx.mentions, hrest.mentions, Arguments.reads, List.map_append]

end

mutual

/-- The nodes that are bound to parameters are the mentions in what they stand for. -/
theorem Action.Of.mentions {action : Action} {n : Node} : action.Of n → n.mentions = action.mentions
  | .declare | .return | .break | .continue => rfl
  | .declareWith hx | .give hx | .drop _ hx | .check hx => by simp [hx.mentions]
  | @Action.Of.assign _ _ place _ _ hx => by
    cases place <;> simp [hx.mentions, Place.index?, Place.binding]
  | .run of => by simp [of.mentions]
  | .when hc hx | .loop hc hx => by simp [hc.mentions, hx.mentions]
  | .either hc hx hy => by simp [hc.mentions, hx.mentions, hy.mentions]
  | .block of => by simp [of.mentions]

theorem Actions.Of.mentions {actions : Actions} {nodes : List Node} : actions.Of nodes →
    nodes.flatMap Node.mentions = actions.mentions
  | .nil => rfl
  | .cons hx hrest => by rw [List.flatMap_cons, hx.mentions, hrest.mentions, Actions.mentions]

end

end Nodes

/-! ## Expressions -/

/-- The parameters that an elaborated expression reads, in order. -/
def Typed.reads : Typed → List Nat
  | .value _ term => term.reads
  | .truth test => test.reads
  | .void _ arguments => arguments.reads

theorem Typed.reads_term {typed : Typed} (notVoid : typed.type ≠ .void) :
    typed.term.reads = typed.reads := by
  cases typed with
  | value | truth => rfl
  | void => exact absurd rfl notVoid

theorem Typed.mentions_action (typed : Typed) : typed.action.mentions = typed.reads.map .read := by
  cases typed <;> rfl

def Meaning.index? : Meaning → Option Nat
  | .parameter _ index => some index
  | _ => none

/-- The parameters that can be used have the positions, and what names stand for is sound. -/
structure Env.Places (e : Env) (x : Indices) : Prop where
  find : ∀ name, (e.get? name).bind Meaning.index? = x.find? name
  sound : ∀ name m, e.get? name = some m → m.Sound

section Expressions

variable {e : Env} {x : Indices} {a : Expr} {typed : Typed}

theorem Env.Places.inner (h : e.Places x) (isLoop : Bool) : (e.inner isLoop).Places x :=
  ⟨h.find, h.sound⟩

theorem Env.Places.cons (h : e.Places x) (name : String) {m : Meaning} (sound : m.Sound)
    (slot : Nat) :
    Env.Places { e with here := (name, m) :: e.here, nextSlot := slot }
      ((name, m.index?) :: x) := by
  refine ⟨fun other => ?_, fun other m' found => ?_⟩
  · unfold Env.get? Indices.find?
    rw [List.cons_append, List.lookup_cons, List.lookup_cons]
    split
    · rfl
    · exact h.find other
  · rcases Env.of_get?_eq_some found rfl rfl with rfl | found
    · exact sound
    · exact h.sound other m' found

theorem Expr.Yields.reads_test (h : Expr.Yields e a typed) (bool : typed.type = .bool) :
    typed.test.reads = typed.reads := by
  rw [h.eq_truth bool]
  rfl

theorem Expr.Yields.reads_cast {target : Ty} (h : Expr.Yields e a typed)
    (fits : ((typed.type.isNumeric && target.isNumeric) ||
      (typed.type == target && !target.isSpecial)) = true) :
    (Typed.cast target typed).reads = typed.reads := by
  have ⟨notVoid, isBool⟩ : typed.type ≠ .void ∧ (target = .bool → typed.type = .bool) := by
    revert fits
    generalize typed.type = source
    cases source <;> cases target <;> decide
  unfold Typed.cast
  split
  · rename_i bool
    exact h.reads_test (isBool bool)
  · split <;> exact Typed.reads_term notVoid

mutual

/-- An expression reads the parameters that its names stand for in the source. -/
theorem Expr.Yields.reads (he : e.Places x) {a : Expr} {typed : Typed} :
    Expr.Yields e a typed → typed.reads = a.reads x
  | .int .. | .byte .. | .bool | .string => rfl
  | .variable found | .parameter found => by
    rw [Expr.reads, ← he.find, found]
    unfold Typed.read
    split <;> rfl
  | .call all found fit => by
    rw [Expr.reads, ← all.reads he (fun type mem => ((he.sound _ _ found).2.2 type mem).1) fit]
    unfold Typed.call
    repeat' split
    all_goals rfl
  | .not operand bool => (operand.reads_test bool).trans (operand.reads he)
  | .and left right leftBool rightBool | .or left right leftBool rightBool => by
    rw [Expr.reads, ← left.reads he, ← right.reads he, ← left.reads_test leftBool,
      ← right.reads_test rightBool]
    rfl
  | .arithmetic left right leftNumber rightNumber | .comparison left right leftNumber
      rightNumber => by
    rw [Expr.reads, ← left.reads he, ← right.reads he,
      ← Typed.reads_term (Ty.ne_void_of_isNumeric leftNumber),
      ← Typed.reads_term (Ty.ne_void_of_isNumeric rightNumber)]
    rfl
  | .cast operand fits => (operand.reads_cast fits).trans (operand.reads he)
  | .conditional condition bool thenValue elseValue valid notVoid => by
    rw [Expr.reads, ← condition.reads he, ← thenValue.reads he, ← elseValue.reads he,
      ← condition.reads_test bool]
    unfold Typed.choice
    split
    · rename_i common
      have types := Ty.castUp_eq_bool common
      rw [← thenValue.reads_test types.1, ← elseValue.reads_test types.2]
      rfl
    · have arms := Ty.ne_void_of_castUp valid notVoid
      rw [← Typed.reads_term arms.1, ← Typed.reads_term arms.2]
      rfl

theorem Expr.YieldsAll.reads (he : e.Places x) :
    ∀ {as : List Expr} {ts : List Typed} {parameters : List Ty},
    Expr.YieldsAll e as ts → (∀ type ∈ parameters, type ≠ .void) → Typed.fit ts parameters = true →
      (Typed.arguments ts parameters).reads = Expr.readsAll x as
  | _, _, [], .nil, _, _ => rfl
  | _, _, _ :: _, .nil, _, fit => by cases fit
  | _, _, [], .cons .., _, fit => by cases fit
  | _, _, type :: types, .cons first rest, sound, fit => by
    obtain ⟨converts, fit⟩ := Bool.and_eq_true_iff.mp fit
    obtain ⟨notVoid, sound⟩ := List.forall_mem_cons.mp sound
    rw [Expr.readsAll, ← first.reads he, ← rest.reads he sound fit,
      ← Typed.reads_term (Ty.ne_void_of_convertibleTo converts notVoid)]
    rfl

end

end Expressions

/-! ## Statements -/

/-- The parameter does not stay where it comes in. -/
def Layout.InMemory (layout : Layout) (index : Nat) : Prop := layout.slots[index]? ≠ some none

theorem Layout.inMemory_spill {layout : Layout} {index i : Nat} :
    (layout.spill index).InMemory i ↔ layout.InMemory i ∨ index = i := by
  unfold Layout.InMemory Layout.spill
  split
  · rw [List.getElem?_set]
    split
    · rename_i same
      split <;> simp [same]
    · simp [*]
  · rename_i other
    refine ⟨.inl, fun h => h.elim id ?_⟩
    rintro rfl
    exact other

attribute [local simp] Stmt.mentions Stmt.mentionsAll

mutual

/-- An action has the mentions of the source, and the parameters that it assigns to get a place. -/
theorem Stmt.Yields.mentions {s : Stmt} {e e' : Env} {layout layout' : Layout} {a : Action}
    {x : Indices} :
    Stmt.Yields s e layout a e' layout' → e.Places x → a.mentions = s.mentions x ∧
      e'.Places (s.behind x) ∧
      ∀ i, layout'.InMemory i ↔ layout.InMemory i ∨ .assign i ∈ s.mentions x
  | .declaration value storable converts _, he => by
    refine ⟨?_, he.cons _ (m := .variable ..) storable _, fun i => by simp; rfl⟩
    cases value with
    | none => rfl
    | some value =>
      have notVoid := Ty.ne_void_of_convertibleTo converts (Ty.ne_void_of_isSpecial storable)
      simp [Action.mentions, Expr.readsAll, Typed.reads_term notVoid, value.reads he]
  | @Stmt.Yields.assignment _ name _ _ place type _ _ value resolved converts, he => by
    have position := he.find name
    have ⟨storable, index⟩ : type.isSpecial = false ∧ x.find? name = place.index? := by
      rcases Env.resolve_eq_ok resolved with ⟨pointer, offset, rfl, found⟩ | ⟨index, rfl, found⟩
      all_goals
        rw [found] at position
        exact ⟨he.sound _ _ found, position.symm⟩
    have notVoid := Ty.ne_void_of_convertibleTo converts (Ty.ne_void_of_isSpecial storable)
    refine ⟨?_, he, fun i => ?_⟩
    · rw [Action.mentions, Stmt.mentions, Typed.reads_term notVoid, value.reads he, index]
    · rw [Stmt.mentions, index]
      cases place with
      | «variable» => simp [Place.index?]; rfl
      | parameter => exact Layout.inMemory_spill.trans (by simp [Place.index?, eq_comm])
  | .expression value, he => by
    refine ⟨?_, he, fun i => by simp⟩
    rw [Typed.mentions_action, value.reads he, Stmt.mentions]
  | .when condition bool body, he | .loop condition bool body, he => by
    obtain ⟨inside, -, spilled⟩ := body.mentions (he.inner _)
    refine ⟨?_, he, fun i => by simp [spilled]⟩
    rw [Action.mentions, Stmt.mentions, condition.reads_test bool, condition.reads he, inside]
  | .either condition bool thenBranch elseBranch, he => by
    obtain ⟨first, -, thenSpilled⟩ := thenBranch.mentions (he.inner _)
    obtain ⟨second, -, elseSpilled⟩ := elseBranch.mentions (he.inner _)
    refine ⟨?_, he, fun i => by simp [thenSpilled, elseSpilled, or_assoc]⟩
    rw [Action.mentions, Stmt.mentions, condition.reads_test bool, condition.reads he,
      first, second]
  | .break _, he | .continue _, he =>
    ⟨rfl, he, fun i => by simp⟩
  | .return value fits, he => by
    refine ⟨?_, he, fun i => by simp⟩
    cases value with
    | none => rfl
    | some value =>
      obtain ⟨result, converts⟩ := Bool.and_eq_true_iff.mp fits
      have notVoid := Ty.ne_void_of_convertibleTo converts (bne_iff_ne.mp result)
      simp [Action.mentions, Expr.readsAll, Typed.reads_term notVoid, value.reads he]
  | .block body, he => ⟨(body.mentions (he.inner _)).1, he, (body.mentions (he.inner _)).2⟩

theorem Stmt.YieldsAll.mentions {ss : List Stmt} {e e' : Env} {layout layout' : Layout}
    {as : Actions} {x : Indices} : Stmt.YieldsAll ss e layout as e' layout' → e.Places x →
      as.mentions = Stmt.mentionsAll ss x ∧
      ∀ i, layout'.InMemory i ↔ layout.InMemory i ∨ .assign i ∈ Stmt.mentionsAll ss x
  | .nil, he => ⟨rfl, fun i => by simp⟩
  | .cons first rest, he => by
    obtain ⟨here, behind, spilled⟩ := first.mentions he
    obtain ⟨later, restSpilled⟩ := rest.mentions behind
    refine ⟨?_, fun i => by simp [spilled, restSpilled, or_assoc]⟩
    rw [Actions.mentions, Stmt.mentionsAll, here, later]

end

/-! ## Functions -/

theorem bindFormals_places {ps : List Parameter} {index : Nat} {e e' : Env} {x : Indices}
    (h : bindFormals (ps.map Parameter.formal) index e = .ok e') (places : e.Places x)
    (storable : ∀ p ∈ ps, p.formal.type.isSpecial = false) :
    e'.Places (((ps.zipIdx index).map fun q => (q.1.name, some q.2)).reverse ++ x) := by
  induction ps generalizing index e x with
  | nil =>
    cases h
    exact places
  | cons p ps ih =>
    obtain ⟨-, h⟩ := of_require_eq_ok h
    obtain ⟨here, later⟩ := List.forall_mem_cons.mp storable
    have inside := ih h (places.cons p.name (m := .parameter p.formal.type index) here _) later
    simpa [Meaning.index?] using inside

theorem GlobalNames.places {globals : List (String × Meaning)} (names : GlobalNames globals)
    (sound : ∀ name m, globals.lookup name = some m → m.Sound) (returnType : Ty) :
    Env.Places { outer := globals, returnType := returnType } [] := by
  refine ⟨fun name => ?_, sound⟩
  show (globals.lookup name).bind Meaning.index? = none
  cases found : globals.lookup name with
  | none => rfl
  | some m =>
    obtain ⟨_, _, rfl⟩ := names name m found
    rfl

/-- The mentions in a function are those of the source, and a parameter has a place of its own if
and only if it is assigned to. -/
theorem FunctionDef.elaborate_mentions {f : FunctionDef} {globals behind : List (String × Meaning)}
    {registers registers' : Nat} {r : Routine}
    (h : f.elaborate globals registers = .ok (r, behind, registers'))
    (names : GlobalNames globals) (sound : ∀ name m, behind.lookup name = some m → m.Sound) :
    r.body.mentions = f.mentions ∧ ∀ i < f.parameters.length, ∃ slot, r.slots[i]? = some slot ∧
      (slot.isSome = true ↔ .assign i ∈ f.mentions) := by
  unfold FunctionDef.elaborate at h
  obtain ⟨e, head, h⟩ := of_bind_eq_ok h
  obtain ⟨⟨as, e', layout⟩, body, h⟩ := of_bind_eq_ok h
  cases h
  obtain ⟨-, storable, -, bound⟩ := of_elaborateHead_eq_ok head
  have inside :=
    bindFormals_places bound ((names.cons _ _ _).places sound _) (List.forall_mem_map.mp storable)
  rw [List.append_nil] at inside
  have yields := Stmt.yieldsAll body
  obtain ⟨same, spilled⟩ := yields.mentions inside
  refine ⟨same, fun i bound => ?_⟩
  have found : layout.slots[i]? = some _ :=
    List.getElem?_eq_getElem (by rw [yields.grows.1.length]; simpa using bound)
  have assigned := (spilled i).trans (or_iff_right fun kept => kept (by simp [bound]))
  unfold Layout.InMemory at assigned
  rw [found] at assigned
  exact ⟨_, found, by simpa [Option.isSome_iff_ne_none, FunctionDef.mentions] using assigned⟩

end Backpatch
