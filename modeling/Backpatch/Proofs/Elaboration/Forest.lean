import Backpatch.Proofs.Tree
import Backpatch.Tree.Forest

/-!
# Growth of the forest

The building of a tree makes new nodes and gives parents to new nodes only. Nodes that have been
made since some point and wait for a parent are *ready*, and a node can be made with the nodes that
are ready as its children.
-/

namespace Backpatch.Forest

open List

/-- Nothing has changed about the nodes of `f`. -/
structure Extends (f f' : Forest) : Prop where
  size : f.size ≤ f'.size
  same : ∀ i, i < f.size → f'.parents[i]? = f.parents[i]?

theorem Extends.refl (f : Forest) : f.Extends f := ⟨Nat.le_refl _, fun _ _ => rfl⟩

variable {f g start : Forest} {nodes : List Node}

theorem Extends.trans {h : Forest} (fg : f.Extends g) (gh : g.Extends h) : f.Extends h where
  size := Nat.le_trans fg.size gh.size
  same i hi := by
    rw [gh.same i (Nat.lt_of_lt_of_le hi fg.size), fg.same i hi]

/-- The nodes were made since the forest was `start`, one after the other, and none has a parent.
The nodes below them have the parents that list them. -/
structure Ready (start : Forest) (nodes : List Node) (f : Forest) : Prop where
  grown : start.Extends f
  increasing : (nodes.map Node.id).Pairwise (· < ·)
  new : ∀ n ∈ nodes, start.size ≤ n.id
  waiting : ∀ n ∈ nodes, f.parents[n.id]? = some none
  ordered : ((Node.postorderAll nodes).map Node.id).Pairwise (· < ·)
  made : ∀ n ∈ Node.postorderAll nodes, start.size ≤ n.id ∧ n.id < f.size
  adopted : ∀ n ∈ Node.postorderAll nodes, ∀ child ∈ n.children, f.parents[child.id]?
    = some (some n.id)

theorem Ready.nil (f : Forest) : Ready f [] f where
  grown := .refl f
  increasing := .nil
  new := nofun
  waiting := nofun
  ordered := .nil
  made := forall_mem_nil _
  adopted := forall_mem_nil _

theorem Ready.lt_size (h : Ready start nodes f) {n : Node} (hn : n ∈ nodes) : n.id < f.size :=
  (Array.getElem?_eq_some_iff.mp (h.waiting n hn)).1

/-- Nodes that are made later are ready too. -/
theorem Ready.append {ns ms : List Node} (hf : Ready start ns f) (hg : Ready f ms g) :
    Ready start (ns ++ ms) g where
  grown := hf.grown.trans hg.grown
  increasing := by
    rw [map_append, pairwise_append]
    refine ⟨hf.increasing, hg.increasing, ?_⟩
    intro a ha b hb
    obtain ⟨n, hn, rfl⟩ := mem_map.mp ha
    obtain ⟨m, hm, rfl⟩ := mem_map.mp hb
    exact Nat.lt_of_lt_of_le (hf.lt_size hn) (hg.new m hm)
  new n hn := by
    rcases mem_append.mp hn with hn | hn
    · exact hf.new n hn
    · exact Nat.le_trans hf.grown.size (hg.new n hn)
  waiting n hn := by
    rcases mem_append.mp hn with hn | hn
    · rw [hg.grown.same n.id (hf.lt_size hn)]
      exact hf.waiting n hn
    · exact hg.waiting n hn
  ordered := by
    rw [Node.postorderAll_append, map_append, pairwise_append]
    refine ⟨hf.ordered, hg.ordered, ?_⟩
    intro a ha b hb
    obtain ⟨n, hn, rfl⟩ := mem_map.mp ha
    obtain ⟨m, hm, rfl⟩ := mem_map.mp hb
    exact Nat.lt_of_lt_of_le (hf.made n hn).2 (hg.made m hm).1
  made n hn := by
    rw [Node.postorderAll_append] at hn
    rcases mem_append.mp hn with hn | hn
    · exact ⟨(hf.made n hn).1, Nat.lt_of_lt_of_le (hf.made n hn).2 hg.grown.size⟩
    · exact ⟨Nat.le_trans hf.grown.size (hg.made n hn).1, (hg.made n hn).2⟩
  adopted n hn child hc := by
    rw [Node.postorderAll_append] at hn
    rcases mem_append.mp hn with hn | hn
    · have old : child.id < f.size := (hf.made child (Node.mem_postorderAll_child hn hc)).2
      rw [hg.grown.same child.id old]
      exact hf.adopted n hn child hc
    · exact hg.adopted n hn child hc

theorem parents_adopt {parent child : NodeId} (h : f.parents[child]? = some none) :
    f.adopt parent child = .ok { parents := f.parents.setIfInBounds child (some parent) } := by
  unfold adopt
  rw [h]

/-- Nodes without a parent are all adopted. -/
theorem adopt_all (increasing : (nodes.map Node.id).Pairwise (· < ·))
    (waiting : ∀ n ∈ nodes, f.parents[n.id]? = some none) (parent : NodeId) :
    ∃ f', nodes.foldlM (fun f child => f.adopt parent child.id) f = .ok f' ∧ f'.size = f.size ∧
      (∀ i, (∀ n ∈ nodes, n.id ≠ i) → f'.parents[i]? = f.parents[i]?) ∧
      ∀ n ∈ nodes, f'.parents[n.id]? = some (some parent) := by
  induction nodes generalizing f with
  | nil => exact ⟨f, rfl, rfl, fun _ _ => rfl, forall_mem_nil _⟩
  | cons n nodes ih =>
    rw [map_cons, pairwise_cons] at increasing
    let g : Forest := { parents := f.parents.setIfInBounds n.id (some parent) }
    have adopted : f.adopt parent n.id = .ok g := parents_adopt (waiting n mem_cons_self)
    have others : ∀ i, n.id ≠ i → g.parents[i]? = f.parents[i]? := by
      intro i hi
      exact Array.getElem?_setIfInBounds_ne hi
    have later : ∀ m ∈ nodes, g.parents[m.id]? = some none := by
      intro m hm
      rw [others m.id (Nat.ne_of_lt (increasing.1 _ (mem_map_of_mem hm)))]
      exact waiting m (mem_cons_of_mem _ hm)
    obtain ⟨f', run, size, same, adoptedAll⟩ := ih increasing.2 later
    refine ⟨f', ?_, ?_, ?_, forall_mem_cons.mpr ⟨?_, adoptedAll⟩⟩
    · rw [foldlM_cons, adopted]
      exact run
    · rw [size]
      exact Array.size_setIfInBounds
    · intro i hi
      rw [same i fun m hm => hi m (mem_cons_of_mem _ hm), others i (hi n mem_cons_self)]
    · rw [same n.id fun m hm => (Nat.ne_of_lt (increasing.1 _ (mem_map_of_mem hm))).symm]
      have lt : n.id < f.parents.size := (Array.getElem?_eq_some_iff.mp (waiting n mem_cons_self)).1
      exact Array.getElem?_setIfInBounds_self_of_lt lt

/-- A node can be made around nodes that are ready, and is then ready itself. -/
theorem Ready.add (h : Ready start nodes f) (kind : NodeKind) (location : Location) :
    ∃ f', f.add kind location nodes = .ok (.mk f.size location kind nodes, f') ∧
      Ready start [.mk f.size location kind nodes] f' := by
  obtain ⟨g, run, size, same, adoptedAll⟩ := adopt_all h.increasing h.waiting f.size
  have last : f.size = g.parents.size := size.symm
  have pushed : ∀ {i : NodeId} {parent : NodeId}, g.parents[i]? = some (some parent) →
      (g.parents.push none)[i]? = some (some parent) := by
    intro i parent found
    have lt := (Array.getElem?_eq_some_iff.mp found).1
    rw [Array.getElem?_push_lt lt, ← Array.getElem?_eq_getElem lt, found]
  refine ⟨{ g with parents := g.parents.push none }, ?_, ?_, ?_, ?_, ?_, ?_, ?_, ?_⟩
  · unfold Forest.add
    simp only [run]
    rfl
  · constructor
    · have grown : g.size ≤ (g.parents.push none).size := by simp [Forest.size]
      exact Nat.le_trans h.grown.size (size ▸ grown)
    · intro i hi
      have old : i < g.parents.size := by
        show i < g.size
        rw [size]
        exact Nat.lt_of_lt_of_le hi h.grown.size
      have kept : g.parents[i]? = f.parents[i]? :=
        same i fun n hn eq => absurd (h.new n hn) (by rw [eq]; exact Nat.not_le_of_lt hi)
      rw [Array.getElem?_push_lt old, ← Array.getElem?_eq_getElem old, kept, h.grown.same i hi]
  · exact pairwise_singleton _ _
  · intro n hn
    obtain rfl := mem_singleton.mp hn
    exact h.grown.size
  · intro n hn
    obtain rfl := mem_singleton.mp hn
    show (g.parents.push none)[f.size]? = some none
    rw [last]
    exact Array.getElem?_push_size
  · rw [Node.postorderAll_singleton, Node.postorder, map_append, pairwise_append]
    refine ⟨h.ordered, pairwise_singleton _ _, ?_⟩
    intro a ha b hb
    obtain ⟨n, hn, rfl⟩ := mem_map.mp ha
    obtain rfl := mem_singleton.mp hb
    exact (h.made n hn).2
  · intro n hn
    have more : f.size < (g.parents.push none).size := by
      rw [Array.size_push, last]
      exact Nat.lt_succ_self _
    rw [Node.postorderAll_singleton, Node.postorder] at hn
    rcases mem_append.mp hn with hn | hn
    · exact ⟨(h.made n hn).1, Nat.lt_trans (h.made n hn).2 more⟩
    · obtain rfl := mem_singleton.mp hn
      exact ⟨h.grown.size, more⟩
  · intro n hn child hc
    rw [Node.postorderAll_singleton, Node.postorder] at hn
    refine pushed ?_
    rcases mem_append.mp hn with hn | hn
    -- Only nodes that waited have got a parent, and a child of another node did not wait.
    · rw [same child.id fun m hm eq => ?_]
      · exact h.adopted n hn child hc
      · have waiting := h.waiting m hm
        rw [eq, h.adopted n hn child hc] at waiting
        cases waiting
    · obtain rfl := mem_singleton.mp hn
      exact adoptedAll child hc

end Backpatch.Forest
