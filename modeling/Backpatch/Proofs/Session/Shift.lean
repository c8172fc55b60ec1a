import Backpatch.Proofs.Elaboration.Follows
import Backpatch.Proofs.Session.Outline

/-!
# Building behind other nodes

The same steps of the building are taken twice: once in a forest that is empty at first, and once in
a forest that holds other nodes already. The second run makes the same nodes under numbers that are
larger by the number of the nodes in front (`Node.shift`, `Forest.behind`), and fails if and as the
first one does. `Tracks` says this of one step, and of everything that is put together from steps.
-/

namespace Backpatch

open List

mutual

/-- The same tree, with larger numbers. -/
def Node.shift (k : Nat) : Node → Node
  | .mk id location kind children => .mk (id + k) location kind (Node.shiftAll k children)

def Node.shiftAll (k : Nat) : List Node → List Node
  | [] => []
  | n :: ns => Node.shift k n :: Node.shiftAll k ns

end

namespace Node

theorem shiftAll_eq_map (k : Nat) (ns : List Node) : shiftAll k ns = ns.map (shift k) := by
  induction ns with
  | nil => rfl
  | cons n ns ih => rw [map_cons, ← ih, shiftAll]

theorem shift_mk (k : Nat) (id : NodeId) (l : Location) (kind : NodeKind) (children : List Node) :
    shift k (.mk id l kind children) = .mk (id + k) l kind (children.map (shift k)) := by
  rw [shift, shiftAll_eq_map]

@[simp] theorem id_shift (k : Nat) (n : Node) : (n.shift k).id = n.id + k := by
  cases n
  rw [shift_mk]
  rfl

@[simp] theorem location_shift (k : Nat) (n : Node) : (n.shift k).location = n.location := by
  cases n
  rw [shift_mk]
  rfl

@[simp] theorem type?_shift (k : Nat) (n : Node) : (n.shift k).type? = n.type? := by
  cases n
  rw [shift_mk]
  rfl

theorem length_postorderAll_singleton (id : NodeId) (l : Location) (kind : NodeKind)
    (children : List Node) :
    (postorderAll [.mk id l kind children]).length = (postorderAll children).length + 1 := by
  rw [postorderAll, postorderAll, postorder, List.append_nil, length_append, length_singleton]

end Node

/-! ## Forests -/

namespace Forest

/-- The forest with other nodes in front. -/
def behind (f : Forest) (before : Array (Option NodeId)) : Forest where
  parents := before ++ f.parents.map (Option.map (· + before.size))

variable {before : Array (Option NodeId)} {f f' : Forest}

theorem behind_empty (before : Array (Option NodeId)) : behind {} before = ⟨before⟩ := by
  unfold behind
  rw [Array.map_empty, Array.append_empty]

theorem size_behind (f : Forest) (before : Array (Option NodeId)) :
    (f.behind before).size = f.size + before.size := by
  unfold size behind
  rw [Array.size_append, Array.size_map, Nat.add_comm]

variable {nodes : List Node} {child parent : NodeId} {kind : NodeKind} {l : Location} {n : Node}

theorem adopt_eq_ok : f.adopt parent child = .ok f' ↔
      f.parents[child]? = some none ∧ f' = ⟨f.parents.setIfInBounds child (some parent)⟩ := by
  constructor
  · intro h
    unfold adopt at h
    split at h
    · exact ⟨‹_›, (Except.ok.inj h).symm⟩
    · cases h
    · cases h
  · rintro ⟨waiting, rfl⟩
    exact parents_adopt waiting

theorem adopt_behind (h : f.adopt parent child = .ok f') :
    (f.behind before).adopt (parent + before.size) (child + before.size)
      = .ok (f'.behind before) := by
  obtain ⟨waiting, rfl⟩ := adopt_eq_ok.mp h
  refine adopt_eq_ok.mpr ⟨?_, ?_⟩
  · unfold behind
    rw [Array.getElem?_append_right (Nat.le_add_left ..), Nat.add_sub_cancel,
      Array.getElem?_map, waiting]
    rfl
  · unfold behind
    rw [Array.setIfInBounds_append_right (Nat.le_add_left ..), Nat.add_sub_cancel,
      Array.map_setIfInBounds]
    rfl

/-- A node in front is adopted, and the nodes behind stay as they are. -/
theorem adopt_before (waiting : before[child]? = some none) :
    (f.behind before).adopt parent child = .ok
      (f.behind (before.setIfInBounds child (some parent))) := by
  have lt : child < before.size := (Array.getElem?_eq_some_iff.mp waiting).1
  refine adopt_eq_ok.mpr ⟨?_, ?_⟩
  · unfold behind
    rw [Array.getElem?_append_left lt, waiting]
  · unfold behind
    rw [Array.setIfInBounds_append_left lt, Array.size_setIfInBounds]

theorem adoptAll_behind (h : nodes.foldlM (fun f child => f.adopt parent child.id) f = .ok f') :
    (nodes.map (Node.shift before.size)).foldlM
      (fun f child => f.adopt (parent + before.size) child.id) (f.behind before)
      = .ok (f'.behind before) := by
  induction nodes generalizing f with
  | nil =>
    cases h
    rfl
  | cons n nodes ih =>
    rw [foldlM_cons] at h
    cases adopted : f.adopt parent n.id with
    | error fault =>
      rw [adopted] at h
      cases h
    | ok g =>
      rw [adopted] at h
      rw [map_cons, foldlM_cons, Node.id_shift, adopt_behind adopted]
      exact ih h

theorem adoptAll_before (increasing : (nodes.map Node.id).Pairwise (· < ·))
    (waiting : ∀ n ∈ nodes, before[n.id]? = some none) (parent : NodeId) :
    ∃ before', before'.size = before.size ∧
      nodes.foldlM (fun f child => f.adopt parent child.id) (f.behind before)
        = .ok (f.behind before') := by
  induction nodes generalizing before with
  | nil => exact ⟨before, rfl, rfl⟩
  | cons n nodes ih =>
    rw [map_cons, pairwise_cons] at increasing
    -- No node is adopted twice, so those that come later still wait.
    have later : ∀ m ∈ nodes, (before.setIfInBounds n.id (some parent))[m.id]? = some none := by
      intro m mem
      rw [Array.getElem?_setIfInBounds_ne (Nat.ne_of_lt (increasing.1 _ (mem_map_of_mem mem)))]
      exact waiting m (mem_cons_of_mem _ mem)
    obtain ⟨before', size, run⟩ := ih increasing.2 later
    refine ⟨before', size.trans Array.size_setIfInBounds, ?_⟩
    rw [foldlM_cons, adopt_before (waiting n mem_cons_self)]
    exact run

theorem behind_push (f : Forest) (before : Array (Option NodeId)) :
    behind ⟨f.parents.push none⟩ before = ⟨(f.behind before).parents.push none⟩ := by
  unfold behind
  rw [Array.map_push, Array.append_push]
  rfl

theorem add_eq_ok :
    f.add kind l nodes = .ok (n, f') ↔ n = .mk f.size l kind nodes ∧
      ∃ g : Forest, nodes.foldlM (fun g child => g.adopt f.size child.id) f = .ok g ∧
        f' = ⟨g.parents.push none⟩ := by
  unfold add
  dsimp only
  cases nodes.foldlM (fun g child => g.adopt f.size child.id) f with
  | error fault =>
    constructor
    · intro h
      cases h
    · rintro ⟨-, g, run, -⟩
      cases run
  | ok g =>
    constructor
    · intro h
      cases h
      exact ⟨rfl, g, rfl, rfl⟩
    · rintro ⟨rfl, g', run, rfl⟩
      cases run
      rfl

theorem size_of_adoptAll (h : nodes.foldlM (fun f child => f.adopt parent child.id) f = .ok f') :
    f'.size = f.size := by
  induction nodes generalizing f with
  | nil =>
    cases h
    rfl
  | cons n nodes ih =>
    rw [foldlM_cons] at h
    cases adopted : f.adopt parent n.id with
    | error fault =>
      rw [adopted] at h
      cases h
    | ok g =>
      rw [adopted] at h
      obtain ⟨-, rfl⟩ := adopt_eq_ok.mp adopted
      exact (ih h).trans Array.size_setIfInBounds

theorem size_of_add (h : f.add kind l nodes = .ok (n, f')) : f'.size = f.size + 1 := by
  obtain ⟨-, g, run, rfl⟩ := add_eq_ok.mp h
  rw [← size_of_adoptAll run]
  exact Array.size_push _

/-- A node that has some of the nodes in front among its children. -/
theorem add_behind_append {earlier : List Node} (h : f.add kind l nodes = .ok (n, f'))
    {before' : Array (Option NodeId)} (size : before'.size = before.size)
    (adopted : earlier.foldlM (fun g child => g.adopt (f.size + before.size) child.id)
      (f.behind before) = .ok (f.behind before')) :
    (f.behind before).add kind l (earlier ++ nodes.map (Node.shift before.size))
      = .ok (.mk (f.size + before.size) l kind (earlier ++ nodes.map (Node.shift before.size)),
        f'.behind before') := by
  obtain ⟨rfl, g, run, rfl⟩ := add_eq_ok.mp h
  refine add_eq_ok.mpr ⟨by rw [size_behind], g.behind before', ?_, behind_push g before'⟩
  rw [foldlM_append, size_behind, adopted, ← size]
  exact adoptAll_behind run

theorem add_behind (h : f.add kind l nodes = .ok (n, f')) (before : Array (Option NodeId)) :
    (f.behind before).add kind l (nodes.map (Node.shift before.size)) = .ok (n.shift before.size,
      f'.behind before) := by
  have made : n = .mk f.size l kind nodes := (add_eq_ok.mp h).1
  rw [made, Node.shift_mk]
  have none : ([] : List Node).foldlM (fun g child => g.adopt (f.size + before.size) child.id)
      (f.behind before) = .ok (f.behind before) := rfl
  exact add_behind_append h rfl none

end Forest

/-! ## Steps -/

theorem SemanticError.ne_missingEntryPoint {e : SemanticError} {l : Location}
    (h : e.location? = some l) : e ≠ .missingEntryPoint := by
  rintro rfl
  cases h

namespace Builder

variable {α β : Type} {before : Array (Option NodeId)} {b b' b₀ : Builder}

def behind (b : Builder) (before : Array (Option NodeId)) : Builder :=
  { b with forest := b.forest.behind before }

/-- The head of the function whose body is being built. -/
def head (b : Builder) : Option (String × Ty × List Ty) :=
  b.function.map fun f => (f.name, f.returnType, f.parameters)

/-- The nodes have been made, with everything below them, and nothing else. Their outlines are
known. The global scope has not forgotten a name, and the function is the same. -/
structure Grows (b : Builder) (nodes : List Node) (outlines : List Outline) (b' : Builder) :
    Prop where
  ready : b.forest.Ready nodes b'.forest
  size : b'.forest.size = b.forest.size + (Node.postorderAll nodes).length
  kept : ∀ name, b.symbols.global.contains name = true → b'.symbols.global.contains name = true
  outlined : nodes.map Node.outline = outlines
  inside : b'.head = b.head

theorem Grows.refl (b : Builder) : b.Grows [] [] b := ⟨.nil _, rfl, fun _ => id, rfl, rfl⟩

variable {ns ms : List Node} {os os' : List Outline}

theorem Grows.append {b'' : Builder} (h : b.Grows ns os b') (h' : b'.Grows ms os' b'') :
    b.Grows (ns ++ ms) (os ++ os') b'' where
  ready := h.ready.append h'.ready
  size := by rw [h'.size, h.size, Node.postorderAll_append, length_append, Nat.add_assoc]
  kept name mem := h'.kept name (h.kept name mem)
  outlined := by rw [map_append, h.outlined, h'.outlined]
  inside := h'.inside.trans h.inside

theorem Grows.function_eq_none (h : b.Grows ns os b') (closed : b.function = none) :
    b'.function = none := by
  have same := h.inside
  unfold head at same
  rw [closed] at same
  exact Option.map_eq_none_iff.mp same

/-- From `b` on, the steps do the same without other nodes and behind them: they fail in the same
way, or the first one succeeds as `Q` says and the second one with the moved result. Only the end of
a program asks for the entry point, and no node gets a second parent. -/
def Tracks (before : Array (Option NodeId)) (b : Builder) (step step' : BuildM α) (move : α → α)
    (Q : α → Builder → Prop) : Prop :=
  match run step b with
  | .ok (.ok x, b') => run step' (b.behind before) = .ok (.ok (move x), b'.behind before) ∧ Q x b'
  | .ok (.error e, b') => run step' (b.behind before) = .ok (.error e, b'.behind before) ∧
    e ≠ .missingEntryPoint
  | .error f => run step' (b.behind before) = .error f ∧ ∀ id, f ≠ .alreadyAdopted id

/-- A step that does not look at nodes. -/
def Blind (before : Array (Option NodeId)) (b : Builder) (step : BuildM α)
    (Q : α → Builder → Prop) : Prop :=
  Tracks before b step step id Q

variable {step step' : BuildM α} {move : α → α} {Q : α → Builder → Prop}

theorem tracks_pure {x x' : α} (moved : x' = move x) (h : Q x b) :
    Tracks before b (pure x) (pure x') move Q :=
  ⟨moved ▸ rfl, h⟩

variable {e : SemanticError}

theorem tracks_throw {l : Location} (h : e.location? = some l) :
    Tracks before b (throw e) (throw e) move Q :=
  ⟨rfl, SemanticError.ne_missingEntryPoint h⟩

theorem tracks_fault {f : Fault} (h : ∀ id, f ≠ .alreadyAdopted id) :
    Tracks before b (fault f) (fault f) move Q :=
  ⟨rfl, h⟩

/-- The three ways in which two steps go together. -/
theorem Tracks.outcome (h : Tracks before b step step' move Q) :
    (∃ x b', run step b = .ok (.ok x, b') ∧ run step' (b.behind before) = .ok (.ok (move x),
      b'.behind before) ∧ Q x b') ∨
    (∃ e b', run step b = .ok (.error e, b') ∧
      run step' (b.behind before) = .ok (.error e, b'.behind before) ∧ e ≠ .missingEntryPoint) ∨
    ∃ f, run step b = .error f ∧ run step' (b.behind before) = .error f ∧
      ∀ id, f ≠ .alreadyAdopted id := by
  unfold Tracks at h
  cases ran : run step b with
  | error f =>
    rw [ran] at h
    exact .inr (.inr ⟨f, rfl, h⟩)
  | ok r =>
    rw [ran] at h
    obtain ⟨result, b'⟩ := r
    cases result with
    | ok x => exact .inl ⟨x, b', rfl, h⟩
    | error e => exact .inr (.inl ⟨e, b', rfl, h⟩)

theorem Tracks.bind {k k' : α → BuildM β} {move' : β → β} {R : β → Builder → Prop}
    (h : Tracks before b step step' move Q)
    (hk : ∀ x b', Q x b' → Tracks before b' (k x) (k' (move x)) move' R) :
    Tracks before b (step >>= k) (step' >>= k') move' R := by
  unfold Tracks
  rw [run_bind, run_bind]
  rcases h.outcome with ⟨x, b', ran, ran', holds⟩ | ⟨e, b', ran, ran', other⟩ | ⟨f, ran,
    ran', other⟩
  · rw [ran, ran']
    exact hk x b' holds
  · rw [ran, ran']
    exact ⟨rfl, other⟩
  · rw [ran, ran']
    exact ⟨rfl, other⟩

theorem Tracks.imp {R : α → Builder → Prop} (h : Tracks before b step step' move Q)
    (imp : ∀ x b', Q x b' → R x b') : Tracks before b step step' move R := by
  unfold Tracks
  rcases h.outcome with ⟨x, b', ran, ran', holds⟩ | ⟨e, b', ran, ran', other⟩ | ⟨f, ran,
    ran', other⟩
  · rw [ran]
    exact ⟨ran', imp x b' holds⟩
  · rw [ran]
    exact ⟨ran', other⟩
  · rw [ran]
    exact ⟨ran', other⟩

theorem Tracks.get {k k' : Builder → BuildM α}
    (h : Tracks before b (k b) (k' (b.behind before)) move Q) :
    Tracks before b (get >>= k) (get >>= k') move Q := h

theorem Tracks.check {holds : Bool} {k k' : Unit → BuildM α} {l : Location}
    (located : e.location? = some l) (h : holds = true → Tracks before b (k ()) (k' ()) move Q) :
    Tracks before b (Builder.check holds e >>= k) (Builder.check holds e >>= k') move Q := by
  cases holds with
  | true => exact h rfl
  | false => exact tracks_throw located

theorem blind_declare {step : SymbolTable → Except SemanticError (α × SymbolTable)}
    (errors : ∀ e, step b.symbols = .error e → e ≠ .missingEntryPoint) :
    Blind before b (declare step) fun x b' =>
      ∃ t, step b.symbols = .ok (x, t) ∧ b' = { b with symbols := t } := by
  unfold Blind Tracks
  cases declared : step b.symbols with
  | ok r =>
    obtain ⟨x, t⟩ := r
    rw [run_declare_ok declared]
    exact ⟨run_declare_ok declared, t, rfl, rfl⟩
  | error e =>
    rw [run_declare_error declared]
    exact ⟨run_declare_error declared, errors e declared⟩

theorem tracks_add {children : List Node} (h : b₀.Grows children os b) (kind : NodeKind)
    (l : Location) :
    Tracks before b (add kind l children) (add kind l (children.map (Node.shift before.size)))
      (Node.shift before.size) fun n b' =>
        b₀.Grows [n] [.mk kind.shape l os] b' ∧ n.kind = kind := by
  obtain ⟨f, made, ready⟩ := h.ready.add kind l
  unfold Tracks run add behind
  simp only [ExceptT.run_mk, StateT.run, made, Forest.add_behind made before]
  refine ⟨rfl, ⟨ready, ?_, h.kept, ?_, h.inside⟩, rfl⟩
  · show f.size = _
    rw [Forest.size_of_add made, h.size, Node.length_postorderAll_singleton, Nat.add_assoc]
  · rw [map_singleton, Node.outline, Node.outlineAll_eq_map, h.outlined]

end Builder

end Backpatch
