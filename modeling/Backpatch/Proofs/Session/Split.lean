import Backpatch.Proofs.Countdown
import Backpatch.Proofs.Session.Build

/-!
# Programs in several sessions

A program can be analyzed in parts, one session for each, on a context that goes from each session
to the next. The last session then says of its part what the analysis of the whole program says of
it (`Program.analyze_append`): only the global scope and the names given out go over from a session
to the next, and it does not matter which functions have been in the same session.
-/

namespace Backpatch

open Builder List

/-- The functions of both programs. -/
def Program.append (p q : Program) : Program := ⟨p.functions ++ q.functions⟩

/-- The tree as a part of a whole: its functions stand behind earlier ones, and the numbers of its
nodes are larger by the number of the nodes of those. -/
def SyntaxTree.Behind (tree : SyntaxTree) (earlier : List Node) (whole : SyntaxTree) : Prop :=
  ∃ id functions before, tree.root = some (.mk id .nowhere .root functions) ∧
    before.size = (Node.postorderAll earlier).length ∧
    whole.root = some (.mk (id + before.size) .nowhere .root
      (earlier ++ functions.map (Node.shift before.size))) ∧
    whole.forest = tree.forest.behind before

/-- The outcome of an analysis as a part of a whole. -/
def Continued (earlier : List Node)
    (part whole : Except Fault (Except SemanticError SyntaxTree × Context)) : Prop :=
  match part with
  | .ok (.ok tree, c) => ∃ tree', whole = .ok (.ok tree', c) ∧ tree.Behind earlier tree'
  | .ok (.error e, c) => whole = .ok (.error e, c)
  | .error f => whole = .error f

/-! ## The runtime functions -/

variable {t t' : SymbolTable} {fs : List RuntimeFunction} {names : NameSupply} {b : Builder}
  {c : Context} {p q : Program} {before : Array (Option NodeId)} {functions : List Node}

theorem SymbolTable.contains_declareRuntime {f : RuntimeFunction} (depth : t.depth = 0)
    (h : declareRuntime t f = .ok t') :
    t'.depth = 0 ∧ t.Keeps t' ∧ t'.global.contains f.name = true := by
  unfold declareRuntime at h
  split at h
  · rename_i known
    cases h
    exact ⟨depth, fun _ => id, known⟩
  · rw [addFunction_eq] at h
    split at h
    · rename_i declared inserted
      cases h
      split at inserted
      · cases inserted
      · cases inserted
        have adds := t.current.adds_function f.name f.returnType f.parameters
        have empty : t.scopes.tail = [] := eq_nil_of_length_eq_zero (length_tail.trans depth)
        refine ⟨?_, keeps_adds adds rfl, ?_⟩
        · unfold modifyCurrent SymbolTable.depth
          rw [empty]
          rfl
        · unfold modifyCurrent global
          rw [empty]
          refine (Scope.contains_insert ..).trans ?_
          rw [decide_eq_true rfl, Bool.true_or]
    · cases h

theorem SymbolTable.contains_declareAll (depth : t.depth = 0)
    (h : fs.foldlM declareRuntime t = .ok t') :
    t.Keeps t' ∧ ∀ f ∈ fs, t'.global.contains f.name = true := by
  induction fs generalizing t with
  | nil =>
    cases h
    exact ⟨fun _ => id, fun _ mem => absurd mem not_mem_nil⟩
  | cons f fs ih =>
    rw [foldlM_cons] at h
    cases declared : declareRuntime t f with
    | error fault =>
      rw [declared] at h
      cases h
    | ok t₁ =>
      rw [declared] at h
      obtain ⟨depth, keeps, here⟩ := contains_declareRuntime depth declared
      obtain ⟨keeps', later⟩ := ih depth h
      exact ⟨fun name mem => keeps' name (keeps name mem),
        forall_mem_cons.mpr ⟨keeps' _ here, later⟩⟩

theorem declareAll_of_contains (h : ∀ f ∈ fs, t.global.contains f.name = true) :
    fs.foldlM declareRuntime t = .ok t := by
  induction fs with
  | nil => rfl
  | cons f fs ih =>
    have known : declareRuntime t f = .ok t := if_pos (h f mem_cons_self)
    rw [foldlM_cons, known]
    exact ih fun g mem => h g (mem_cons_of_mem _ mem)

theorem Builder.start_of_contains (h : ∀ f ∈ runtimeFunctions, t.global.contains f.name = true) :
    start names t = .ok { names := names, symbols := t } := by
  unfold start
  rw [declareAll_of_contains h]
  rfl

theorem Builder.of_start (depth : t.depth = 0) (h : start names t = .ok b) :
    b.forest = {} ∧ b.function = none ∧ ∀ f ∈ runtimeFunctions, b.symbols.global.contains f.name
      = true := by
  unfold start at h
  cases declared : runtimeFunctions.foldlM declareRuntime t with
  | error fault =>
    rw [declared] at h
    cases h
  | ok t' =>
    rw [declared] at h
    cases h
    exact ⟨rfl, rfl, (SymbolTable.contains_declareAll depth declared).2⟩

/-! ## One session -/

/-- What is given back when a tree has been built. -/
def Context.outcome (c : Context) (r : Except SemanticError Node × Builder) :
    Except SemanticError SyntaxTree × Context :=
  (r.1.map fun root => { forest := r.2.forest, root := some root }, c.afterBuilder r.2)

theorem Program.analyze_of_builder (h : c.builder = .ok b) (p : Program) :
    p.analyze c = (run p.build b).map c.outcome := by
  unfold analyze
  rw [h]
  show (run p.build b >>= _) = _
  cases run p.build b <;> rfl

theorem FunctionDef.buildAll_append (fs gs : List FunctionDef) :
    FunctionDef.buildAll (fs ++ gs)
      = (FunctionDef.buildAll fs >>= fun ns => FunctionDef.buildAll gs >>= fun ms =>
        pure (ns ++ ms)) := by
  induction fs with
  | nil =>
    unfold FunctionDef.buildAll
    simp
  | cons f fs ih =>
    rw [cons_append, FunctionDef.buildAll, FunctionDef.buildAll, ih]
    simp only [bind_assoc, pure_bind, cons_append]

/-- The end of a program only asks for the entry point and makes the root. -/
theorem Builder.run_finish (functions : List Node) (b : Builder) :
    run (finish functions) b = if hasEntryPoint b.symbols then run (add .root .nowhere functions) b
      else .ok (.error .missingEntryPoint, b) := by
  show run (check (hasEntryPoint b.symbols) .missingEntryPoint >>= fun _ => _) b = _
  cases hasEntryPoint b.symbols <;> rfl

theorem Builder.run_add_ok {kind : NodeKind} {l : Location} {children : List Node} {n : Node}
    {f : Forest} (h : b.forest.add kind l children = .ok (n, f)) :
    run (add kind l children) b = .ok (.ok n, { b with forest := f }) := by
  unfold run add
  simp only [ExceptT.run_mk, StateT.run, h]
  rfl

theorem Program.run_build (p : Program) (b : Builder) :
    run p.build b = run (FunctionDef.buildAll p.functions >>= finish) b := rfl

/-- A session that fails at the end, if at all, has built its functions. -/
theorem Program.exists_built {b' : Builder} {first : Except SemanticError Node}
    (h : run p.build b = .ok (first, b')) (passed : (∃ root, first = .ok root) ∨
      first = .error .missingEntryPoint) :
    ∃ functions b₁, run (FunctionDef.buildAll p.functions) b = .ok (.ok functions, b₁) ∧
      b.Grows functions (p.functions.map FunctionDef.outline) b₁ ∧
      b'.names = b₁.names ∧ b'.symbols = b₁.symbols ∧
      ∀ root, first = .ok root → ∃ id, root = .mk id .nowhere .root functions := by
  have tracks : Tracks #[] b _ _ _ _ := FunctionDef.tracks_buildAll p.functions b
  rw [run_build, run_bind] at h
  rcases tracks.outcome with ⟨functions, b₁, ran, -, grown⟩ | ⟨e, b₁, ran, -, other⟩ | ⟨f, ran, -⟩
  · rw [ran] at h
    refine ⟨functions, b₁, ran, grown, ?_⟩
    dsimp only at h
    rw [run_finish] at h
    split at h
    · obtain ⟨f, made, -⟩ := grown.ready.add .root .nowhere
      rw [run_add_ok made] at h
      cases h
      refine ⟨rfl, rfl, ?_⟩
      rintro _ ⟨⟩
      exact ⟨_, rfl⟩
    · cases h
      refine ⟨rfl, rfl, ?_⟩
      rintro _ ⟨⟩
  · rw [ran] at h
    cases h
    rcases passed with ⟨root, isRoot⟩ | missing
    · cases isRoot
    · cases missing
      exact absurd rfl other
  · rw [ran] at h
    cases h

/-! ## Two sessions -/

/-- The last session ends, in an empty forest and behind other nodes. -/
theorem Builder.finish_behind {earlier later : List Node} {start : Builder} {os : List Outline}
    (ready : Forest.Ready {} earlier ⟨before⟩) (grown : start.Grows later os b) :
    (run (finish later) b = .ok (.error .missingEntryPoint, b) ∧
      run (finish (earlier ++ later.map (Node.shift before.size))) (b.behind before)
        = .ok (.error .missingEntryPoint, b.behind before)) ∨
    ∃ id f before', before'.size = before.size ∧
      run (finish later) b = .ok (.ok (.mk id .nowhere .root later), { b with forest := f }) ∧
      run (finish (earlier ++ later.map (Node.shift before.size))) (b.behind before)
        = .ok (.ok (.mk (id + before.size) .nowhere .root
            (earlier ++ later.map (Node.shift before.size))),
          { b with forest := f.behind before' }) := by
  by_cases entry : hasEntryPoint b.symbols = true
  · right
    obtain ⟨f, made, -⟩ := grown.ready.add .root .nowhere
    obtain ⟨before', size, adopted⟩ :=
      Forest.adoptAll_before (f := b.forest) ready.increasing ready.waiting
        (b.forest.size + before.size)
    refine ⟨b.forest.size, f, before', size, (run_finish ..).trans ?_, (run_finish ..).trans ?_⟩
    · exact (if_pos entry).trans (run_add_ok made)
    · exact (if_pos entry).trans (run_add_ok (Forest.add_behind_append made size adopted))
  · left
    refine ⟨(run_finish ..).trans ?_, (run_finish ..).trans ?_⟩
    · exact if_neg entry
    · exact if_neg entry

/-- Both sessions as one: the second one starts where the first one has ended, behind its nodes. -/
theorem Program.run_append {b₁ : Builder}
    (ran : run (FunctionDef.buildAll p.functions) b = .ok (.ok functions, b₁)) :
    run (p.append q).build b
      = run (FunctionDef.buildAll q.functions >>= fun later => finish (functions ++ later)) b₁ := by
  rw [run_build, append, FunctionDef.buildAll_append, bind_assoc, run_bind_ok ran]
  simp only [bind_assoc, pure_bind]

/-- The second session, on its own and as the rest of the whole. -/
theorem Program.continued_of_built {start : Builder}
    (ran : run (FunctionDef.buildAll p.functions) b = .ok (.ok functions, start.behind before))
    (ready : Forest.Ready {} functions ⟨before⟩)
    (size : before.size = (Node.postorderAll functions).length) :
    Continued functions ((run q.build start).map c.outcome)
      ((run (p.append q).build b).map c.outcome) := by
  have tracks : Tracks before start _ _ _ _ := FunctionDef.tracks_buildAll q.functions start
  have whole : run (p.append q).build b
      = run (FunctionDef.buildAll q.functions >>= fun later => finish (functions ++ later))
        (start.behind before) :=
    run_append ran
  rw [run_bind] at whole
  rw [run_build q, run_bind]
  rcases tracks.outcome with ⟨later, b₂, built, built', grown'⟩ | ⟨e, b₂, built, built', -⟩ | ⟨f,
    built, built', -⟩
  · rw [built'] at whole
    rw [built]
    dsimp only at whole ⊢
    rcases finish_behind ready grown' with ⟨ended, ended'⟩ | ⟨id, f, before', same, ended, ended'⟩
    · rw [ended, whole.trans ended']
      rfl
    · rw [ended, whole.trans ended']
      refine ⟨_, rfl, id, later, before', rfl, same.trans size, ?_, rfl⟩
      rw [same]
  · rw [built'] at whole
    rw [built, whole]
    rfl
  · rw [built'] at whole
    rw [built, whole]
    rfl

/-- What a session hands on to the next one: everything but its nodes. -/
theorem Program.exists_session {c₁ : Context} {first : Except SemanticError SyntaxTree}
    (depth : c.symbols.depth = 0) (analyzed : p.analyze c = .ok (first, c₁))
    (passed : (∃ tree, first = .ok tree) ∨ first = .error .missingEntryPoint) :
    ∃ b start functions before, c.builder = .ok b ∧ c₁.builder = .ok start ∧
      run (FunctionDef.buildAll p.functions) b = .ok (.ok functions, start.behind before) ∧
      Forest.Ready {} functions ⟨before⟩ ∧ before.size = (Node.postorderAll functions).length ∧
      functions.length = p.functions.length ∧ c₁.outcome = c.outcome ∧
      ∀ tree, first = .ok tree → ∃ id, tree.root = some (.mk id .nowhere .root functions) := by
  cases started : c.builder with
  | error f =>
    unfold analyze at analyzed
    rw [started] at analyzed
    cases analyzed
  | ok b =>
    obtain ⟨empty, outside, runtime⟩ := Builder.of_start depth started
    rw [analyze_of_builder started] at analyzed
    cases ran : run p.build b with
    | error f =>
      rw [ran] at analyzed
      cases analyzed
    | ok r =>
      obtain ⟨result, b'⟩ := r
      rw [ran] at analyzed
      cases analyzed
      have passed' : (∃ root, result = .ok root) ∨ result = .error .missingEntryPoint := by
        cases result with
        | ok root => exact .inl ⟨root, rfl⟩
        | error e =>
          rcases passed with ⟨tree, isTree⟩ | missing
          · cases isTree
          · exact .inr (congrArg _ (Except.error.inj missing))
      obtain ⟨functions, b₁, built, grown, names, symbols, root⟩ := exists_built ran passed'
      have count : functions.length = p.functions.length := by
        rw [← length_map Node.outline, grown.outlined, length_map]
      -- The runtime functions are known already.
      have known : (c.afterBuilder b').builder
          = .ok { names := b₁.names, symbols := b₁.symbols } := by
        show Builder.start b'.names b'.symbols = _
        rw [names, symbols]
        exact start_of_contains fun f mem => grown.kept _ (runtime f mem)
      have here : b₁ = Builder.behind { names := b₁.names, symbols := b₁.symbols }
          b₁.forest.parents := by
        unfold Builder.behind
        rw [Forest.behind_empty]
        cases b₁
        cases grown.function_eq_none outside
        rfl
      have size : b₁.forest.size = (Node.postorderAll functions).length := by
        rw [grown.size, empty]
        exact Nat.zero_add _
      refine ⟨b, _, functions, b₁.forest.parents, rfl, known, here ▸ built, empty ▸ grown.ready,
        size, count, rfl, ?_⟩
      intro tree isTree
      cases result with
      | error e => cases isTree
      | ok made =>
        cases isTree
        obtain ⟨id, rfl⟩ := root made rfl
        exact ⟨id, rfl⟩

/-- A program can be analyzed in parts. If the first part is accepted, or lacks nothing but the
entry point, then the second part fares on the context left behind as the whole program does on the
first context: it fails with the same error, or its tree is a part of the whole tree. The context is
the same afterwards. -/
theorem Program.analyze_append {p : Program} {c c₁ : Context}
    {first : Except SemanticError SyntaxTree}
    (depth : c.symbols.depth = 0) (analyzed : p.analyze c = .ok (first, c₁))
    (passed : (∃ tree, first = .ok tree) ∨ first = .error .missingEntryPoint) (q : Program) :
    ∃ earlier, earlier.length = p.functions.length ∧
      (∀ tree, first = .ok tree → ∃ id, tree.root = some (.mk id .nowhere .root earlier)) ∧
      Continued earlier (q.analyze c₁) ((p.append q).analyze c) := by
  obtain ⟨b, start, functions, before, started, started', built, ready, size, count, same, root⟩ :=
    exists_session depth analyzed passed
  refine ⟨functions, count, root, ?_⟩
  rw [analyze_of_builder started, analyze_of_builder started', same]
  exact continued_of_built built ready size

/-- The countdown in two sessions, the first of which has no entry point. -/
theorem Program.countdown_analyze_append : ∃ c₁ c₂ tree earlier whole,
    (⟨countdown.functions.take 1⟩ : Program).analyze (.start {})
      = .ok (.error .missingEntryPoint, c₁) ∧
      (⟨countdown.functions.drop 1⟩ : Program).analyze c₁ = .ok (.ok tree, c₂) ∧
      countdown.analyze (.start {}) = .ok (.ok whole, c₂) ∧ tree.Behind earlier whole := by
  have first : ∃ c₁, (⟨countdown.functions.take 1⟩ : Program).analyze (.start {})
      = .ok (.error .missingEntryPoint, c₁) := ⟨_, rfl⟩
  obtain ⟨c₁, first⟩ := first
  obtain ⟨earlier, -, -, continued⟩ :=
    Program.analyze_append rfl first (.inr rfl) ⟨countdown.functions.drop 1⟩
  obtain ⟨whole, c₂, accepted⟩ := countdown_accepted
  have joined : (Program.append ⟨countdown.functions.take 1⟩ ⟨countdown.functions.drop 1⟩).analyze
      (.start {}) = .ok (.ok whole, c₂) := accepted
  unfold Continued at continued
  split at continued
  · rename_i tree c second
    obtain ⟨tree', same, behind⟩ := continued
    cases joined.symm.trans same
    exact ⟨c₁, c₂, tree, earlier, whole, first, second, accepted, behind⟩
  · cases joined.symm.trans continued
  · cases joined.symm.trans continued

end Backpatch
