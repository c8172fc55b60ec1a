import Mathlib.Data.List.Nodup
import Backpatch.Tree.Node

/-!
# Nodes below a node

The nodes of a tree in the order in which they are made, and their numbers. Where no number is given
out twice, the trees of different children have no node in common.
-/

namespace Backpatch.Node

open List

/-- The node has a type. -/
def IsExpression (n : Node) : Prop := ∃ type, n.type? = some type

def IsStatement (n : Node) : Prop := ∃ kind, n.kind = .statement kind

variable {m n root : Node} {nodes : List Node}

theorem kind_of_type? {type : Ty} (h : n.type? = some type) :
    ∃ kind, n.kind = .expression type kind := by
  obtain ⟨id, l, kind, children⟩ := n
  cases kind with
  | expression type' kind =>
    cases h
    exact ⟨kind, rfl⟩
  | _ => cases h

/-! ## The nodes of a tree -/

theorem postorderAll_eq (nodes : List Node) : postorderAll nodes = nodes.flatMap postorder := by
  induction nodes with
  | nil => rfl
  | cons n nodes ih => rw [postorderAll, ih, flatMap_cons]

theorem postorderAll_append (ns ms : List Node) :
    postorderAll (ns ++ ms) = postorderAll ns ++ postorderAll ms := by
  rw [postorderAll_eq, postorderAll_eq, postorderAll_eq, flatMap_append]

theorem postorderAll_singleton (n : Node) : postorderAll [n] = n.postorder := by
  rw [postorderAll_eq, flatMap_singleton]

theorem mem_postorderAll : n ∈ postorderAll nodes ↔ ∃ m ∈ nodes, n ∈ m.postorder := by
  rw [postorderAll_eq, mem_flatMap]

theorem mem_postorder : n ∈ m.postorder ↔ n = m ∨ ∃ child ∈ m.children, n ∈ child.postorder := by
  cases m with
  | mk id l kind children =>
    rw [postorder, mem_append, mem_singleton, mem_postorderAll, or_comm]; rfl

theorem mem_postorder_self (n : Node) : n ∈ n.postorder := mem_postorder.mpr (.inl rfl)

mutual

/-- What every node hands on to its children holds of all nodes of the tree. -/
theorem forall_mem_postorder {P : Node → Prop} (step : ∀ m, P m → ∀ n ∈ m.children, P n) :
    ∀ root : Node, P root → ∀ n ∈ root.postorder, P n
  | mk id l kind children, h, n, mem => by
    rw [postorder] at mem
    rcases mem_append.mp mem with mem | mem
    · exact forall_mem_postorderAll step children (step _ h) n mem
    · exact mem_singleton.mp mem ▸ h

theorem forall_mem_postorderAll {P : Node → Prop} (step : ∀ m, P m → ∀ n ∈ m.children, P n) :
    ∀ nodes : List Node, (∀ n ∈ nodes, P n) → ∀ n ∈ postorderAll nodes, P n
  | [], _, _, mem => absurd mem (by rw [postorderAll]; exact not_mem_nil)
  | first :: rest, h, n, mem => by
    rw [postorderAll] at mem
    rcases mem_append.mp mem with mem | mem
    · exact forall_mem_postorder step first (h first mem_cons_self) n mem
    · exact forall_mem_postorderAll step rest (fun m inside => h m (mem_cons_of_mem _ inside)) n mem

end

/-! ## Numbers -/

/-- The numbers of the nodes of a tree. -/
def ids (n : Node) : List NodeId := n.postorder.map id

/-- The numbers of the nodes of trees. -/
def idsAll (ns : List Node) : List NodeId := (postorderAll ns).map id

theorem ids_mk (i : NodeId) (l : Location) (kind : NodeKind) (children : List Node) :
    (mk i l kind children).ids = idsAll children ++ [i] := by
  rw [ids, postorder, map_append]
  rfl

theorem idsAll_cons (n : Node) (ns : List Node) : idsAll (n :: ns) = n.ids ++ idsAll ns := by
  rw [idsAll, postorderAll, map_append]
  rfl

theorem idsAll_append (ns ms : List Node) : idsAll (ns ++ ms) = idsAll ns ++ idsAll ms := by
  rw [idsAll, postorderAll_append, map_append]
  rfl

theorem id_mem_ids (n : Node) : n.id ∈ n.ids := mem_map_of_mem n.mem_postorder_self

theorem ids_subset_idsAll {ns : List Node} (h : n ∈ ns) : n.ids ⊆ idsAll ns := by
  refine map_subset id fun m mem => ?_
  exact mem_postorderAll.mpr ⟨n, h, mem⟩

theorem ids_subset_of_mem_children (h : n ∈ m.children) : n.ids ⊆ m.ids := by
  cases m with
  | mk i l kind children =>
    rw [ids_mk]
    exact subset_append_of_subset_left _ (ids_subset_idsAll h)

theorem postorder_subset (h : n ∈ root.postorder) : n.postorder ⊆ root.postorder := by
  refine forall_mem_postorder (P := fun m => m.postorder ⊆ root.postorder) ?_ root
    (List.Subset.refl _) n h
  intro m inside child mem
  exact List.Subset.trans (fun k below => mem_postorder.mpr (.inr ⟨child, mem, below⟩)) inside

/-- Every node of a tree but its root is a child of a node of the tree. -/
theorem exists_parent (h : n ∈ root.postorder) (other : n ≠ root) :
    ∃ m ∈ root.postorder, n ∈ m.children := by
  have found : n ∈ root.postorder ∧ (n = root ∨ ∃ m ∈ root.postorder, n ∈ m.children) := by
    refine forall_mem_postorder (P := fun n =>
      n ∈ root.postorder ∧ (n = root ∨ ∃ m ∈ root.postorder, n ∈ m.children))
      ?_ root ⟨mem_postorder_self root, .inl rfl⟩ n h
    rintro m ⟨inside, -⟩ child mem
    have below : child ∈ m.postorder :=
      mem_postorder.mpr (.inr ⟨child, mem, mem_postorder_self child⟩)
    exact ⟨postorder_subset inside below, .inr ⟨m, inside, mem⟩⟩
  exact found.2.resolve_left other

theorem mem_postorderAll_child {child : Node} (h : n ∈ postorderAll nodes)
    (hc : child ∈ n.children) : child ∈ postorderAll nodes := by
  obtain ⟨m, mem, below⟩ := mem_postorderAll.mp h
  have inside : child ∈ n.postorder :=
    mem_postorder.mpr (.inr ⟨child, hc, mem_postorder_self child⟩)
  exact mem_postorderAll.mpr ⟨m, mem, postorder_subset below inside⟩

theorem ids_sublist_of_mem_children (h : n ∈ m.children) : n.ids.Sublist m.ids := by
  cases m with
  | mk i l kind children =>
    rw [ids_mk]
    refine List.Sublist.trans ?_ (sublist_append_left _ _)
    obtain ⟨before, after, rfl⟩ := append_of_mem h
    rw [idsAll_append, idsAll_cons]
    exact (sublist_append_left _ _).trans (sublist_append_right _ _)

section Numbered

variable {root n m : Node} (numbered : root.ids.Nodup)

include numbered

theorem ids_nodup (h : n ∈ root.postorder) : n.ids.Nodup :=
  forall_mem_postorder (P := fun m => m.ids.Nodup)
    (fun _ nodup _ mem => nodup.sublist (ids_sublist_of_mem_children mem)) root numbered n h

theorem id_notMem_ids (hn : n ∈ root.postorder) (hm : m ∈ root.postorder) (out : m ∉ n.postorder) :
    m.id ∉ n.ids := by
  intro mem
  obtain ⟨k, below, eq⟩ := mem_map.mp mem
  have same : k = m := inj_on_of_nodup_map numbered (postorder_subset hn below) hm eq
  exact out (same ▸ below)

/-- Different children have no number in common. -/
theorem ids_disjoint_take {i : Nat} (child : root.children[i]? = some n) :
    ∀ id ∈ n.ids, id ∉ idsAll (root.children.take i) := by
  cases root with
  | mk id l kind children =>
    have found : children[i]? = some n := child
    obtain ⟨bound, eq⟩ := List.getElem?_eq_some_iff.mp found
    have split : children = children.take i ++ n :: children.drop (i + 1) := by
      rw [← eq, getElem_cons_drop, take_append_drop]
    rw [ids_mk, split, idsAll_append, idsAll_cons] at numbered
    have apart := (nodup_append.mp (nodup_append.mp numbered).1).2.2
    intro number here early
    exact apart number early number (mem_append_left _ here) rfl

theorem id_ne_of_mem_children (mem : m ∈ postorderAll root.children) : m.id ≠ root.id := by
  cases root with
  | mk id l kind children =>
    rw [ids_mk] at numbered
    exact (nodup_append.mp numbered).2.2 m.id (mem_map_of_mem mem) id (mem_singleton.mpr rfl)

end Numbered

end Backpatch.Node
