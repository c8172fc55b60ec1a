import Mathlib.Data.List.Perm.Subperm
import Backpatch.Proofs.Session.Failure
import Backpatch.Proofs.Session.Split

/-!
# The tree is the program

Without what the checking adds the tree of a program is the program. The nodes are numbered in the
order in which a walk through the tree leaves them, none is made that is not in the tree, and none
gets a second parent (`Program.analyze_outline`).
-/

namespace Backpatch

open Builder List

/-- Numbers that increase, and are as many as they can be, are all the numbers there are. -/
theorem eq_range_of_increasing {numbers : List Nat} {n : Nat}
    (increasing : numbers.Pairwise (· < ·))
    (below : ∀ i ∈ numbers, i < n) (length : numbers.length = n) : numbers = range n := by
  have nodup : numbers.Nodup := increasing.imp Nat.ne_of_lt
  have inside := subperm_of_subset nodup fun i mem => mem_range.mpr (below i mem)
  have all := inside.perm_of_length_le (Nat.le_of_eq (length_range.trans length.symm))
  exact all.eq_of_pairwise (fun _ _ _ _ lt gt => absurd lt (Nat.lt_asymm gt)) increasing
    pairwise_lt_range

/-- The nodes of the forest are those of one tree, numbered in post-order. -/
structure Forest.Spans (f : Forest) (root : Node) : Prop where
  numbers : root.postorder.map Node.id = range f.size
  top : f.parent? root.id = none
  parents : ∀ n ∈ root.postorder, ∀ child ∈ n.children, f.parent? child.id = some n.id

namespace Forest.Spans

variable {f : Forest} {root n : Node}

theorem of_ready (ready : Forest.Ready {} [root] f) (size : f.size = root.postorder.length) :
    f.Spans root where
  numbers := by
    refine eq_range_of_increasing ?_ (forall_mem_map.mpr fun n mem => ?_) ?_
    · exact Node.postorderAll_singleton root ▸ ready.ordered
    · exact (ready.made n (Node.postorderAll_singleton root ▸ mem)).2
    · rw [length_map, size]
  top := by
    unfold Forest.parent?
    rw [ready.waiting root (mem_singleton.mpr rfl)]
    rfl
  parents n mem child inside := by
    unfold Forest.parent?
    rw [ready.adopted n (Node.postorderAll_singleton root ▸ mem) child inside]
    rfl

theorem nodup (h : f.Spans root) : root.ids.Nodup := by
  show (root.postorder.map Node.id).Nodup
  rw [h.numbers]
  exact nodup_range

/-- Every node but the root is a child of one node, and the forest knows which. -/
theorem parent (h : f.Spans root) (mem : n ∈ root.postorder) (other : n ≠ root) :
    ∃ m ∈ root.postorder, n ∈ m.children ∧ f.parent? n.id = some m.id ∧
      ∀ m' ∈ root.postorder, n ∈ m'.children → m' = m := by
  obtain ⟨m, inside, child⟩ := Node.exists_parent mem other
  refine ⟨m, inside, child, h.parents m inside n child, fun m' inside' child' => ?_⟩
  have same := (h.parents m' inside' n child').symm.trans (h.parents m inside n child)
  exact inj_on_of_nodup_map h.nodup inside' inside (Option.some.inj same)

end Forest.Spans

variable {b : Builder} {t : SymbolTable}

/-- A program that is accepted has become a tree with its outline, which is all of the forest. -/
theorem Program.built {p : Program} {b' : Builder} {root : Node} (empty : b.forest = {})
    (ran : run p.build b = .ok (.ok root, b')) :
    root.outline = p.outline ∧ b'.forest.Spans root := by
  obtain ⟨functions, b₁, built, finished⟩ := of_run_bind_eq_ok ran
  have tracks : Tracks #[] b _ _ _ _ := FunctionDef.tracks_buildAll p.functions b
  rcases tracks.outcome with ⟨_, _, ran, -, grown⟩ | ⟨_, _, ran, -⟩ | ⟨_, ran, -⟩
  · rw [built] at ran
    cases ran
    rw [run_finish] at finished
    split at finished
    · obtain ⟨n, f, made, same, rfl⟩ := of_run_add finished
      cases same
      obtain ⟨f', made', ready⟩ := grown.ready.add .root .nowhere
      rw [made] at made'
      cases made'
      refine ⟨?_, .of_ready (empty ▸ ready) ?_⟩
      · rw [Node.outline, Node.outlineAll_eq_map, grown.outlined]
        rfl
      · rw [Forest.size_of_add made, grown.size, empty, Node.postorder, length_append]
        exact congrArg (· + 1) (Nat.zero_add _)
    · cases finished
  · rw [built] at ran
    cases ran
  · rw [built] at ran
    cases ran

theorem Builder.of_start_eq {names : NameSupply} (h : Builder.start names t = .ok b) :
    b.forest = {} := by
  obtain ⟨t', -, done⟩ := of_bind_eq_ok h
  cases done
  rfl

theorem Builder.declareRuntime_failed {fs : List RuntimeFunction} {f : Fault}
    (h : fs.foldlM declareRuntime t = .error f) :
    ∃ name cause, f = .runtimeFunctionTaken name cause := by
  induction fs generalizing t with
  | nil => cases h
  | cons g fs ih =>
    rw [foldlM_cons] at h
    cases declared : declareRuntime t g with
    | ok t' =>
      rw [declared] at h
      exact ih h
    | error f' =>
      rw [declared] at h
      cases h
      unfold declareRuntime at declared
      split at declared
      · cases declared
      · split at declared
        · cases declared
        · cases declared
          exact ⟨_, _, rfl⟩

theorem Builder.start_ne_alreadyAdopted (names : NameSupply) (t : SymbolTable) (id : NodeId) :
    Builder.start names t ≠ .error (.alreadyAdopted id) := by
  intro failed
  unfold Builder.start at failed
  cases declared : runtimeFunctions.foldlM declareRuntime t with
  | ok t' =>
    rw [declared] at failed
    cases failed
  | error f =>
    obtain ⟨name, cause, rfl⟩ := declareRuntime_failed declared
    rw [declared] at failed
    cases failed

theorem Program.run_build_ne_alreadyAdopted (p : Program) (b : Builder) (id : NodeId) :
    run p.build b ≠ .error (.alreadyAdopted id) := by
  intro ran
  have tracks : Tracks #[] b _ _ _ _ := FunctionDef.tracks_buildAll p.functions b
  rw [run_build, run_bind] at ran
  rcases tracks.outcome with ⟨functions, b₁, built, -, grown⟩ | ⟨e, b₁, built, -⟩ | ⟨f,
    built, -, other⟩
  · rw [built] at ran
    dsimp only at ran
    rw [run_finish] at ran
    split at ran
    · obtain ⟨f, made, -⟩ := grown.ready.add .root .nowhere
      rw [run_add_ok made] at ran
      cases ran
    · cases ran
  · rw [built] at ran
    cases ran
  · rw [built] at ran
    cases ran
    exact other id rfl

/-- The tree of an accepted program, whatever the context holds, is the program with what the
checking adds. A walk through it leaves the nodes in the order of their numbers, all of them, each
once. Every node but the root has one parent, which lists it as a child. No node is ever given a
second parent. -/
theorem Program.analyze_outline (p : Program) (c : Context) :
    (∀ id, p.analyze c ≠ .error (.alreadyAdopted id)) ∧
    ∀ tree c', p.analyze c = .ok (.ok tree, c') → ∃ root, tree.root = some root ∧
        root.postorder.map Node.id = range tree.forest.size ∧ root.outline = p.outline ∧
        tree.forest.parent? root.id = none ∧ ∀ n ∈ root.postorder, n ≠ root →
          ∃ m ∈ root.postorder, n ∈ m.children ∧ tree.forest.parent? n.id = some m.id ∧
            ∀ m' ∈ root.postorder, n ∈ m'.children → m' = m := by
  cases started : c.builder with
  | error f =>
    have failed : p.analyze c = .error f := by
      unfold analyze
      rw [started]
      rfl
    rw [failed]
    refine ⟨fun id same => ?_, fun tree c' accepted => ?_⟩
    · cases same
      exact start_ne_alreadyAdopted c.names c.symbols id started
    · cases accepted
  | ok b =>
    rw [analyze_of_builder started]
    refine ⟨fun id same => ?_, fun tree c' accepted => ?_⟩
    · cases ran : run p.build b with
      | error f =>
        rw [ran] at same
        cases same
        exact run_build_ne_alreadyAdopted p b id ran
      | ok r =>
        rw [ran] at same
        cases same
    · cases ran : run p.build b with
      | error f =>
        rw [ran] at accepted
        cases accepted
      | ok r =>
        obtain ⟨result, b'⟩ := r
        rw [ran] at accepted
        cases result with
        | error e => cases accepted
        | ok root =>
          cases accepted
          obtain ⟨outline, spans⟩ := built (of_start_eq started) ran
          exact ⟨root, rfl, spans.numbers, outline, spans.top, fun n mem other =>
            spans.parent mem other⟩

theorem Program.countdown_outline :
    ∃ tree c' root, countdown.analyze (.start {}) = .ok (.ok tree, c') ∧
    tree.root = some root ∧ root.postorder.map Node.id = range tree.forest.size ∧
    root.outline = countdown.outline := by
  obtain ⟨tree, c', accepted⟩ := countdown_accepted
  obtain ⟨root, isRoot, numbers, outline, -⟩ :=
    (analyze_outline countdown (.start {})).2 tree c' accepted
  exact ⟨tree, c', root, accepted, isRoot, numbers, outline⟩

end Backpatch
