import Backpatch.Proofs.Output.Types

/-!
# Places in the frame

A variable has the place in the frame that is numbered by the variables declared before it in the
scopes that are still open, so variables that can be used at the same time have different places,
and places are used again as soon as a scope is closed. The frame is as large as the places make it,
and every address in the finished code is inside it (`Program.analyze_storage`).
-/

namespace Backpatch

open List

namespace Node

/-- The place in the frame that a declaration has. -/
def offset? (n : Node) : Option Int :=
  match n.kind with
  | .statement (.declaration _ _ offset _) => some offset
  | _ => none

/-- The node is below the first one, and `earlier` are the declarations, from the outermost on, that
stand before it in the blocks around it: the variables whose scopes are open at the node. A branch
or the body of a loop has a scope of its own, so only what is inside a block is passed by. -/
inductive Reaches : Node → List Node → Node → Prop
  | here (n : Node) : Reaches n [] n
  | block {id : NodeId} {l : Location} {before after earlier : List Node} {child n : Node}
      (below : Reaches child earlier n) :
      Reaches (mk id l (.statement .block) (before ++ child :: after))
        (before.filter (·.offset?.isSome) ++ earlier) n
  | inside {id : NodeId} {l : Location} {kind : NodeKind} {children earlier : List Node}
      {child n : Node}
      (other : kind ≠ .statement .block) (mem : child ∈ children)
      (below : Reaches child earlier n) :
      Reaches (mk id l kind children) earlier n

mutual

/-- Every node of a tree is reached. -/
theorem exists_reaches : ∀ {root n : Node}, n ∈ root.postorder → ∃ earlier, root.Reaches earlier n
  | mk id l kind children, n, mem => by
    rw [postorder] at mem
    rcases mem_append.mp mem with mem | mem
    · obtain ⟨child, inside, earlier, below⟩ := exists_reaches_child mem
      by_cases block : kind = .statement .block
      · subst block
        obtain ⟨before, after, rfl⟩ := append_of_mem inside
        exact ⟨_, .block below⟩
      · exact ⟨earlier, .inside block inside below⟩
    · rw [mem_singleton.mp mem]
      exact ⟨[], .here _⟩

theorem exists_reaches_child {n : Node} :
    ∀ {nodes : List Node}, n ∈ postorderAll nodes →
      ∃ child ∈ nodes, ∃ earlier, child.Reaches earlier n
  | [], mem => absurd mem (by rw [postorderAll]; exact not_mem_nil)
  | first :: rest, mem => by
    rw [postorderAll] at mem
    rcases mem_append.mp mem with mem | mem
    · obtain ⟨earlier, below⟩ := exists_reaches mem
      exact ⟨first, mem_cons_self, earlier, below⟩
    · obtain ⟨child, inside, below⟩ := exists_reaches_child mem
      exact ⟨child, mem_cons_of_mem _ inside, below⟩

end

/-- Nothing is declared in the tree. -/
def Plain (n : Node) : Prop := ∀ earlier m, n.Reaches earlier m → earlier = [] ∧ m.offset? = none

theorem plain_expression {id : NodeId} {l : Location} {type : Ty} {kind : ExprKind}
    {children : List Node}
    (h : ∀ c ∈ children, c.Plain) : (mk id l (.expression type kind) children).Plain := by
  intro earlier m reaches
  cases reaches with
  | here => exact ⟨rfl, rfl⟩
  | inside _ mem below => exact h _ mem _ _ below

/-- The places of all variables declared in a tree. -/
def offsets (n : Node) : List Int := n.postorder.filterMap offset?

theorem Plain.offsets {n : Node} (h : n.Plain) : n.offsets = [] := by
  refine filterMap_eq_nil_iff.mpr fun m mem => ?_
  obtain ⟨earlier, reaches⟩ := exists_reaches mem
  exact (h earlier m reaches).2

end Node

/-! ## Expressions declare nothing -/

mutual

theorem Term.plain_of {t : Term} {n : Node} : t.Of n → n.Plain
  | .number _ | .text | .read _ => Node.plain_expression (forall_mem_nil _)
  | .call _ _ _ of => Node.plain_expression (Arguments.plain_of of)
  | .truth of => Test.plain_of of
  | .arithmetic _ hx hy =>
    Node.plain_expression (forall_mem_cons.mpr ⟨Term.plain_of hx,
      forall_mem_singleton.mpr (Term.plain_of hy)⟩)
  | .cut _ hx | .same _ _ _ hx =>
    Node.plain_expression (forall_mem_singleton.mpr (Term.plain_of hx))
  | .choice _ _ _ hc hx hy => Node.plain_expression (forall_mem_cons.mpr ⟨Test.plain_of hc,
      forall_mem_cons.mpr ⟨Term.plain_of hx, forall_mem_singleton.mpr (Term.plain_of hy)⟩⟩)

theorem Test.plain_of {t : Test} {n : Node} : t.Of n → n.Plain
  | .constant | .read => Node.plain_expression (forall_mem_nil _)
  | .call of => Node.plain_expression (Arguments.plain_of of)
  | .not hx | .same _ hx => Node.plain_expression (forall_mem_singleton.mpr (Test.plain_of hx))
  | .and hx hy | .or hx hy =>
    Node.plain_expression (forall_mem_cons.mpr ⟨Test.plain_of hx,
      forall_mem_singleton.mpr (Test.plain_of hy)⟩)
  | .compare _ _ _ _ hx hy =>
    Node.plain_expression (forall_mem_cons.mpr ⟨Term.plain_of hx,
      forall_mem_singleton.mpr (Term.plain_of hy)⟩)
  | .choice hc hx hy => Node.plain_expression (forall_mem_cons.mpr ⟨Test.plain_of hc,
      forall_mem_cons.mpr ⟨Test.plain_of hx, forall_mem_singleton.mpr (Test.plain_of hy)⟩⟩)

theorem Arguments.plain_of {a : Arguments} {nodes : List Node} {types : List Ty} :
    a.Of nodes types → ∀ n ∈ nodes, n.Plain
  | .nil => forall_mem_nil _
  | .cons _ hx hrest => forall_mem_cons.mpr ⟨Term.plain_of hx, Arguments.plain_of hrest⟩

end

/-! ## Places of variables -/

mutual

/-- Variables get the places from the next one on, and the place of a variable is free again after
the scope it is declared in. -/
def Action.Laid : Action → Nat → Prop
  | .declare offset _ _, next => offset = next
  | .when _ body, next | .loop _ body, next => body.Laid next
  | .either _ thenBranch elseBranch, next => thenBranch.Laid next ∧ elseBranch.Laid next
  | .block body, next => body.Laid next
  | .assign .., _ | .drop _, _ | .run .., _ | .check _, _ | .break, _ | .continue,
    _ | .return _, _ => True

def Actions.Laid : Actions → Nat → Prop
  | .nil, _ => True
  | .cons first rest, next => first.Laid next ∧ rest.Laid (next + first.declared.length)

end

mutual

/-- The places of all variables that are declared, in order. -/
def Action.offsets : Action → List Nat
  | .declare offset _ _ => [offset]
  | .when _ body | .loop _ body => body.offsets
  | .either _ thenBranch elseBranch => thenBranch.offsets ++ elseBranch.offsets
  | .block body => body.offsets
  | .assign .. | .drop _ | .run .. | .check _ | .break | .continue | .return _ => []

def Actions.offsets : Actions → List Nat
  | .nil => []
  | .cons first rest => first.offsets ++ rest.offsets

end

/-- The size of a frame that had a size before and is to have the places. -/
def frameFor (size : Nat) (offsets : List Nat) : Nat :=
  offsets.foldl (fun size offset => max size (offset + 1)) size

theorem frameFor_append (size : Nat) (xs ys : List Nat) :
    frameFor size (xs ++ ys) = frameFor (frameFor size xs) ys :=
  foldl_append

theorem Typed.laid_action (typed : Typed) (next : Nat) :
    typed.action.Laid next ∧ typed.action.offsets = [] ∧ typed.action.declared = [] := by
  cases typed with
  | value | truth | void => exact ⟨trivial, rfl, rfl⟩

theorem Layout.frameSize_assign (layout : Layout) (place : Place) :
    (layout.assign place).frameSize = layout.frameSize := by
  cases place with
  | «variable» => rfl
  | parameter index =>
    show (layout.spill index).frameSize = layout.frameSize
    unfold Layout.spill
    split <;> rfl

mutual

/-- The elaboration gives places in order, and lets the frame grow to them. -/
theorem Stmt.Yields.laid {s : Stmt} {e e' : Env} {layout layout' : Layout} :
    ∀ {a : Action}, Stmt.Yields s e layout a e' layout' →
      a.Laid e.nextSlot ∧ e'.nextSlot = e.nextSlot + a.declared.length ∧
        layout'.frameSize = frameFor layout.frameSize a.offsets
  | _, .declaration .. => ⟨rfl, rfl, rfl⟩
  | .assign place _, .assignment .. => ⟨trivial, rfl, layout.frameSize_assign place⟩
  | _, @Stmt.Yields.expression _ _ tx _ _ _ => by
    obtain ⟨laid, offsets, declared⟩ := tx.laid_action e.nextSlot
    rw [offsets, declared]
    exact ⟨laid, rfl, rfl⟩
  | _, .when _ _ body | _, .loop _ _ body => ⟨body.laid.1, rfl, body.laid.2.2⟩
  | _, .either _ _ thenBranch elseBranch => by
    obtain ⟨first, -, size⟩ := thenBranch.laid
    obtain ⟨second, -, size'⟩ := elseBranch.laid
    refine ⟨⟨first, second⟩, rfl, ?_⟩
    rw [size', size]
    exact (frameFor_append ..).symm
  | _, .break _ | _, .continue _ | _, .return .. => ⟨trivial, rfl, rfl⟩
  | _, .block body => ⟨body.laid.1, rfl, body.laid.2⟩

theorem Stmt.YieldsAll.laid {ss : List Stmt} {e e' : Env} {layout layout' : Layout} {as : Actions} :
    Stmt.YieldsAll ss e layout as e' layout' →
      as.Laid e.nextSlot ∧ layout'.frameSize = frameFor layout.frameSize as.offsets
  | .nil => ⟨trivial, rfl⟩
  | .cons first rest => by
    obtain ⟨laid, next, size⟩ := first.laid
    obtain ⟨laid', size'⟩ := rest.laid
    rw [next] at laid'
    rw [size']
    exact ⟨⟨laid, laid'⟩, (size ▸ frameFor_append ..).symm⟩

end

/-! ## Places in the tree -/

namespace Node

theorem offsets_mk (id : NodeId) (l : Location) (kind : NodeKind) (children : List Node) :
    (mk id l kind children).offsets = children.flatMap offsets
      ++ (mk id l kind children).offset?.toList := by
  unfold offsets
  rw [postorder, postorderAll_eq, filterMap_append, filterMap_flatMap]
  congr 1

end Node

variable {next registers registers' : Nat} {a : Action} {n : Node} {id : NodeId} {l : Location}
  {globals : List (String × Meaning)}

theorem Action.offset?_of (h : a.Of n) : n.offset?.toList = a.declared.map fun p =>
    (p.2 : Int) := by
  cases h <;> rfl

theorem Node.offsets_over {kind : NodeKind} {n : Node} (h : n.Plain) :
    (mk id l kind [n]).offsets = (mk id l kind [n]).offset?.toList := by
  rw [offsets_mk, flatMap_singleton, h.offsets, nil_append]

mutual

theorem Action.offsets_of {a : Action} {n : Node} :
    a.Of n → n.offsets = a.offsets.map fun (k : Nat) => (k : Int)
  | .declare | .break | .continue | .return => rfl
  | .declareWith hx | .assign hx | .drop _ hx | .give hx => Node.offsets_over (Term.plain_of hx)
  | .run of => Node.offsets_over (Node.plain_expression (Arguments.plain_of of))
  | .check hx => Node.offsets_over (Test.plain_of hx)
  | .when hc hx | .loop hc hx => by
    rw [Node.offsets_mk, flatMap_cons, flatMap_singleton, (Test.plain_of hc).offsets,
      Action.offsets_of hx]
    exact List.append_nil _
  | .either hc hx hy => by
    rw [Node.offsets_mk, flatMap_cons, flatMap_cons, flatMap_singleton,
      (Test.plain_of hc).offsets, Action.offsets_of hx, Action.offsets_of hy, ← map_append]
    exact List.append_nil _
  | .block of => by
    rw [Node.offsets_mk, Actions.offsets_of of]
    exact List.append_nil _

theorem Actions.offsets_of {as : Actions} {nodes : List Node} : as.Of nodes →
    nodes.flatMap Node.offsets = as.offsets.map fun (k : Nat) => (k : Int)
  | .nil => rfl
  | .cons hx hrest => by
    rw [flatMap_cons, Action.offsets_of hx, Actions.offsets_of hrest, ← map_append]
    rfl

end

/-- The declarations have the places from the given one on. -/
def Node.Numbered (next : Nat) (declarations : List Node) : Prop :=
  declarations.map Node.offset? = (range' next declarations.length).map fun (k : Nat) =>
    some (k : Int)

theorem Node.Numbered.append {first second : List Node} (h : Numbered next first)
    (h' : Numbered (next + first.length) second) : Numbered next (first ++ second) := by
  unfold Numbered at *
  rw [map_append, h, h', ← map_append, length_append, ← range'_append_1]

theorem Action.Laid.offset_eq (h : a.Laid next) : ∀ p ∈ a.declared, p.2 = next := by
  cases a with
  | declare offset pointer => exact forall_mem_singleton.mpr h
  | _ => exact forall_mem_nil _

/-- A node of a block that is not a declaration leaves the places as they are, and a declaration
takes the next one. -/
theorem Action.numbered_of (h : a.Of n) (laid : a.Laid next) :
    let declarations := [n].filter (·.offset?.isSome)
    Node.Numbered next declarations ∧ declarations.length = a.declared.length := by
  have offset := Action.offset?_of h
  have places := laid.offset_eq
  intro declarations
  cases found : n.offset? with
  | none =>
    rw [found] at offset
    have declared : a.declared = [] := map_eq_nil_iff.mp offset.symm
    have none : declarations = [] := filter_eq_nil_iff.mpr (by simp [found])
    rw [none, declared]
    exact ⟨rfl, rfl⟩
  | some k =>
    rw [found] at offset
    obtain ⟨p, declared, rfl⟩ := map_eq_singleton_iff.mp offset.symm
    have one : declarations = [n] := filter_eq_self.mpr (by simp [found])
    rw [declared, forall_mem_singleton] at places
    rw [one, declared]
    refine ⟨?_, rfl⟩
    show [n.offset?] = [some (next : Int)]
    rw [found, places]

/-- Up to a node of a block, variables have been declared at places in order. -/
theorem Actions.split_of {as : Actions} {before after : List Node} {child : Node}
    (h : as.Of (before ++ child :: after)) (laid : as.Laid next) :
    let declarations := before.filter (·.offset?.isSome)
    Node.Numbered next declarations ∧
      ∃ a : Action, a.Of child ∧ a.Laid (next + declarations.length) := by
  induction before generalizing as next with
  | nil =>
    cases h with
    | cons hx hrest => exact ⟨rfl, _, hx, laid.1⟩
  | cons n before ih =>
    cases h with
    | cons hx hrest =>
      obtain ⟨here, length⟩ := Action.numbered_of hx laid.1
      obtain ⟨later, a, ha, laidChild⟩ := ih hrest (length ▸ laid.2)
      show Node.Numbered next (([n] ++ before).filter _) ∧
        ∃ a : Action, a.Of child ∧ a.Laid (next + (([n] ++ before).filter _).length)
      rw [filter_append, length_append, ← Nat.add_assoc]
      exact ⟨here.append later, a, ha, laidChild⟩

/-- What is below a statement: a block has actions one after the other, any other statement has
expressions and actions that begin with the same place. -/
theorem Action.children_of {kind : NodeKind} {children : List Node}
    (h : a.Of (.mk id l kind children)) (laid : a.Laid next) :
    (kind = .statement .block ∧ ∃ body : Actions, body.Of children ∧ body.Laid next) ∨
      (kind ≠ .statement .block ∧ ∀ c ∈ children, c.Plain ∨
        ∃ a : Action, a.Of c ∧ a.Laid next) := by
  cases h with
  | declare | «break» | «continue» | «return» => exact .inr ⟨by simp, forall_mem_nil _⟩
  | declareWith hx | assign hx | drop _ hx | give hx =>
    exact .inr ⟨by simp, forall_mem_singleton.mpr (.inl (Term.plain_of hx))⟩
  | run of =>
    exact .inr ⟨by simp, forall_mem_singleton.mpr
    (.inl (Node.plain_expression (Arguments.plain_of of)))⟩
  | check hx => exact .inr ⟨by simp, forall_mem_singleton.mpr (.inl (Test.plain_of hx))⟩
  | when hc hx | loop hc hx => exact .inr ⟨by simp, forall_mem_cons.mpr ⟨.inl (Test.plain_of hc),
      forall_mem_singleton.mpr (.inr ⟨_, hx, laid⟩)⟩⟩
  | either hc hx hy =>
      exact .inr ⟨by simp, forall_mem_cons.mpr ⟨.inl (Test.plain_of hc),
      forall_mem_cons.mpr ⟨.inr ⟨_, hx, laid.1⟩, forall_mem_singleton.mpr (.inr ⟨_, hy, laid.2⟩)⟩⟩⟩
  | block of => exact .inl ⟨rfl, _, of, laid⟩

/-- The variables that are open at a node have the places from the first one on, and a variable that
is declared there gets the next place. -/
theorem Action.reaches_of {m : Node} {earlier : List Node} (h : a.Of n) (laid : a.Laid next)
    (reaches : n.Reaches earlier m) :
    Node.Numbered next earlier ∧ ∀ offset, m.offset? = some offset →
      offset = next + earlier.length := by
  induction reaches generalizing a next with
  | here n =>
    refine ⟨rfl, fun offset found => ?_⟩
    have places := Action.offset?_of h
    rw [found] at places
    obtain ⟨p, declared, rfl⟩ := map_eq_singleton_iff.mp places.symm
    have value := laid.offset_eq p (declared ▸ mem_singleton_self p)
    rw [value]
    rfl
  | block below ih =>
    obtain ⟨-, body, hb, laidBody⟩ := (Action.children_of h laid).resolve_right fun no => no.1 rfl
    obtain ⟨here, a, ha, laidChild⟩ := Actions.split_of hb laidBody
    obtain ⟨later, value⟩ := ih ha laidChild
    refine ⟨here.append later, fun offset found => ?_⟩
    rw [value offset found, length_append]
    omega
  | inside other mem below ih =>
    obtain ⟨-, below'⟩ := (Action.children_of h laid).resolve_left fun yes => other yes.1
    rcases below' _ mem with plain | ⟨a, ha, laidChild⟩
    · -- An expression declares nothing.
      obtain ⟨rfl, none⟩ := plain _ _ below
      refine ⟨rfl, fun offset found => ?_⟩
      rw [none] at found
      cases found
    · exact ih ha laidChild

/-! ## Functions -/

/-- What is said of the frame of a function: variables that are open at the same time have different
places, numbered in the order of their declarations, and the frame is just large enough. -/
structure Node.WellLaid (body : Node) (frameSize : Int) : Prop where
  /-- A variable has the place that is numbered by the variables open where it is declared. -/
  offset_eq : ∀ earlier n offset, body.Reaches earlier n → n.offset? = some offset →
    offset = earlier.length
  distinct : ∀ earlier n, body.Reaches earlier n → n.offset?.isSome →
    (earlier ++ [n]).Pairwise fun a b => a.offset? ≠ b.offset?
  frameSize_eq : frameSize = body.offsets.max?.elim 0 (· + 1)

theorem Node.Numbered.pairwise {declarations : List Node} (h : Numbered next declarations) :
    declarations.Pairwise fun a b => a.offset? ≠ b.offset? := by
  have different : (declarations.map Node.offset?).Pairwise (· ≠ ·) := by
    rw [h, pairwise_map]
    exact (nodup_range' 1 Nat.one_pos).imp fun differ eq =>
      differ (Int.ofNat.inj (Option.some.inj eq))
  exact pairwise_map.mp different

/-- A frame is as large as it was, or ends with one of the places. -/
theorem frameFor_le (size : Nat) (offsets : List Nat) :
    size ≤ frameFor size offsets ∧ (∀ k ∈ offsets, k < frameFor size offsets) ∧
      (frameFor size offsets = size ∨ ∃ k ∈ offsets, frameFor size offsets = k + 1) := by
  induction offsets generalizing size with
  | nil => exact ⟨Nat.le_refl _, forall_mem_nil _, .inl rfl⟩
  | cons first rest ih =>
    obtain ⟨grows, all, ends⟩ := ih (max size (first + 1))
    rw [show frameFor size (first :: rest) = frameFor (max size (first + 1)) rest from rfl]
    refine ⟨by omega, forall_mem_cons.mpr ⟨by omega, all⟩, ?_⟩
    rcases ends with same | ⟨k, mem, eq⟩
    · rw [same]
      rcases Nat.le_total size (first + 1) with le | le
      · exact .inr ⟨first, mem_cons_self, Nat.max_eq_right le⟩
      · exact .inl (Nat.max_eq_left le)
    · exact .inr ⟨k, mem_cons_of_mem _ mem, eq⟩

theorem frameFor_eq (offsets : List Nat) :
    (frameFor 0 offsets : Int) = (offsets.map fun (k : Nat) => (k : Int)).max?.elim 0 (· + 1) := by
  obtain ⟨-, all, ends⟩ := frameFor_le 0 offsets
  rcases ends with same | ⟨k, mem, eq⟩
  · -- A frame without places.
    cases offsets with
    | nil => rfl
    | cons first rest =>
      have positive := all first mem_cons_self
      omega
  · have largest : (offsets.map fun (k : Nat) => (k : Int)).max? = some (k : Int) := by
      refine max?_eq_some_iff.mpr ⟨mem_map_of_mem mem, forall_mem_map.mpr fun j inside => ?_⟩
      have below := all j inside
      omega
    rw [largest, eq]
    rfl

theorem Routine.wellLaid_of {f : Routine} {nodes : List Node} (h : f.body.Of nodes)
    (laid : f.body.Laid 0) (size : f.frameSize = frameFor 0 f.body.offsets) :
    (Node.mk id l (.statement .block) nodes).WellLaid f.frameSize := by
  have block : (Action.block f.body).Of (.mk id l (.statement .block) nodes) := .block h
  constructor
  · intro earlier n offset reaches found
    rw [(Action.reaches_of block laid reaches).2 offset found, Int.natCast_zero, Int.zero_add]
  · intro earlier n reaches declares
    obtain ⟨numbered, value⟩ := Action.reaches_of block laid reaches
    obtain ⟨offset, found⟩ := Option.isSome_iff_exists.mp declares
    have here : Node.Numbered (0 + earlier.length) [n] := by
      show [n.offset?] = [some ((0 + earlier.length : Nat) : Int)]
      rw [found, value offset found]
      rfl
    exact (numbered.append here).pairwise
  · rw [Action.offsets_of block, size]
    exact frameFor_eq _

theorem FunctionDef.elaborate_laid {f : FunctionDef} {globals' : List (String × Meaning)}
    {routine : Routine} (h : f.elaborate globals registers = .ok (routine, globals', registers')) :
    routine.body.Laid 0 ∧ routine.frameSize = frameFor 0 routine.body.offsets := by
  obtain ⟨e, head, h⟩ := of_bind_eq_ok h
  obtain ⟨⟨as, e', layout⟩, body, h⟩ := of_bind_eq_ok h
  cases h
  obtain ⟨-, -, -, bound⟩ := of_elaborateHead_eq_ok head
  have laid := (Stmt.yieldsAll body).laid
  rw [(bindFormals_eq_ok bound).2.2.1] at laid
  exact laid

theorem Program.elaborate_laid {p : Program} {fs : List Routine}
    (h : p.elaborate = .ok (fs, registers)) :
    ∀ f ∈ fs, f.body.Laid 0 ∧ f.frameSize = frameFor 0 f.body.offsets := by
  intro f mem
  obtain ⟨g, paired⟩ := Program.exists_source h mem
  obtain ⟨_, _, _, _, elaborated, -, -⟩ := Program.elaborate_mem h _ paired
  exact g.elaborate_laid elaborated

/-- In code that is well typed, an address in the frame is inside the frame that is reserved. -/
theorem FunctionCode.WellTyped.inFrame {f : FunctionCode} (h : f.WellTyped) {r : Register}
    {size offset : Int} (mem : .slotAddress r size offset ∈ f.lines) :
    0 ≤ offset ∧ offset < size ∧ .allocaFrame size ∈ f.lines := by
  obtain ⟨frame, low, high⟩ := h.reads _ mem
  refine ⟨low, high, ?_⟩
  obtain ⟨i, found, type⟩ :=
    Option.bind_eq_some_iff.mp (show (f.body.find? _).bind _ = _ from frame)
  obtain rfl := Instr.eq_allocaFrame type
  exact mem_append_left _ (mem_cons_of_mem _ (mem_of_find?_eq_some found))

/-- In the tree of a program that is accepted, every variable has the place in the frame that is
numbered by the variables declared before it in the scopes that are still open, so variables that
are open at the same time have different places. The frame of a function ends with the last place
that is used, and in the finished code every address in a frame is inside it. -/
theorem Program.analyze_storage {p : Program} {options : Options} {tree : SyntaxTree} {c : Context}
    (h : p.analyze (.start options) = .ok (.ok tree, c)) : ∃ root, tree.root = some root ∧
      (∀ f ∈ root.children, ∃ info body, f.kind = .function info ∧ f.children = [body] ∧
        body.WellLaid info.frameSize ∧ ∀ n ∈ body.postorder, ∃ earlier, body.Reaches earlier n) ∧
      ∀ b, p.emit options = .ok b → b.instrs = b.functions.flatMap FunctionCode.written ∧
        ∀ f ∈ b.functions, ∀ r size offset, .slotAddress r size offset ∈ f.lines →
          0 ≤ offset ∧ offset < size ∧ .allocaFrame size ∈ f.lines := by
  obtain ⟨fs, registers, elaborated, checked⟩ := checked_of_analyze h
  obtain ⟨root, isRoot, ofAll⟩ := checked.root
  refine ⟨root, isRoot, ?_, ?_⟩
  · intro n mem
    obtain ⟨f, source, id, l, id', l', nodes, rfl, hbody⟩ := ofAll.exists_of n mem
    obtain ⟨laid, size⟩ := Program.elaborate_laid elaborated f source
    exact ⟨_, _, rfl, rfl, Routine.wellLaid_of hbody laid size, fun n inside =>
      Node.exists_reaches inside⟩
  · intro b emitted
    obtain ⟨fs, registers, compiled⟩ := compiled_of_emit emitted
    exact ⟨compiled.instrs_functions, fun f mem r size offset address =>
      (compiled.wellTyped f mem).inFrame address⟩

theorem Program.countdown_storage :
    ∃ tree c root, countdown.analyze (.start {}) = .ok (.ok tree, c) ∧ tree.root = some root ∧
      ∀ f ∈ root.children, ∃ info body, f.kind = .function info ∧ f.children = [body] ∧
        body.WellLaid info.frameSize := by
  obtain ⟨tree, c, accepted⟩ := countdown_accepted
  obtain ⟨root, isRoot, laid, -⟩ := Program.analyze_storage accepted
  refine ⟨tree, c, root, accepted, isRoot, fun f mem => ?_⟩
  obtain ⟨info, body, kind, children, wellLaid, -⟩ := laid f mem
  exact ⟨info, body, kind, children, wellLaid⟩

end Backpatch
