import JavaFormat.Proofs.Syntax.Shape
import Mathlib.Data.List.Nodup
import Mathlib.Data.List.Pairwise

/-!
# Trees as tables

The nodes of a tree make up a table in which every node stands behind its children. If
they are numbered along it, the number of a node finds the node and the node above it, and
every node but the root is the child of exactly one other (`isTable_of_numbered`).
-/

namespace JavaFormat.Tree

/-- A tree whose nodes are numbered in the order of its table. -/
structure IsTable (t : Tree) : Prop where
  numbered : t.nodes.map index = List.range t.nodes.length
  /-- The root is the last node. -/
  last : t.nodes.getLast? = some t
  /-- A child is a node with a smaller number. -/
  below : ∀ u ∈ t.nodes, ∀ c ∈ u.children, c ∈ t.nodes ∧ c.index < u.index
  /-- The lists of children hold every node but the root once. -/
  once : (t.nodes.flatMap children).Perm t.nodes.dropLast
  /-- The node above a node is the one that it is a child of. -/
  parents : ∀ u ∈ t.nodes, ∃ c, Cursor.at? t u.index = some c ∧ c.node = u ∧
    ∀ p, c.parent? = some p ↔ p ∈ t.nodes ∧ u ∈ p.children

/-- The root is the last node. -/
theorem getLast?_nodes (t : Tree) : t.nodes.getLast? = some t := by
  cases t <;> simp [nodes]

mutual

/-- Numbers that rise along the table are smaller at the children. -/
theorem index_lt_of_mem_children : ∀ {t u c : Tree}, (t.nodes.map index).Pairwise (· < ·) →
    u ∈ t.nodes → c ∈ u.children → c.index < u.index
  | .leaf _ _, _, _, _, hu, hc => by
    obtain rfl := List.mem_singleton.mp hu
    cases hc
  | .branch info ts, u, c, h, hu, hc => by
    rw [nodes, List.map_append, List.pairwise_append] at h
    rw [nodes, List.mem_append] at hu
    rcases hu with hu | hu
    · exact index_lt_of_mem_childrenAll h.1 hu hc
    · obtain rfl := List.mem_singleton.mp hu
      have hmem : c ∈ nodesOfAll ts := mem_nodesOfAll_of_mem hc c.mem_nodes_self
      exact h.2.2 _ (List.mem_map_of_mem hmem) _ (by simp)

/-- In nodes that are numbered upwards a child has a lower number than its parent. -/
theorem index_lt_of_mem_childrenAll : ∀ {ts : List Tree} {u c : Tree},
    ((nodesOfAll ts).map index).Pairwise (· < ·) → u ∈ nodesOfAll ts → c ∈ u.children →
      c.index < u.index
  | [], _, _, _, hu, _ => by cases hu
  | t :: ts, u, c, h, hu, hc => by
    rw [nodesOfAll, List.map_append, List.pairwise_append] at h
    rw [nodesOfAll, List.mem_append] at hu
    rcases hu with hu | hu
    · exact index_lt_of_mem_children h.1 hu hc
    · exact index_lt_of_mem_childrenAll h.2.1 hu hc

end

mutual

/-- A tree has its root and the children of its nodes as nodes. -/
theorem perm_flatMap_children : ∀ t : Tree, (t :: t.nodes.flatMap children).Perm t.nodes
  | .leaf info text => by simp [nodes, children]
  | .branch info ts => by
    have hchildren : ((nodesOfAll ts).flatMap children ++ ts).Perm (nodesOfAll ts) :=
      List.perm_append_comm.trans (perm_flatMap_childrenAll ts)
    rw [nodes, List.flatMap_append, List.flatMap_singleton]
    exact (hchildren.cons _).trans (List.perm_append_singleton _ _).symm

/-- The roots and the children of all nodes are all nodes, each once. -/
theorem perm_flatMap_childrenAll : ∀ ts : List Tree,
    (ts ++ (nodesOfAll ts).flatMap children).Perm (nodesOfAll ts)
  | [] => by simp [nodesOfAll]
  | t :: ts => by
    have hfirst := perm_flatMap_children t
    have hrest := perm_flatMap_childrenAll ts
    rw [nodesOfAll, List.flatMap_append]
    calc t :: ts ++ (t.nodes.flatMap children ++ (nodesOfAll ts).flatMap children)
      _ = t :: (ts ++ (t.nodes.flatMap children ++ (nodesOfAll ts).flatMap children)) := rfl
      _ |>.Perm (t :: (t.nodes.flatMap children ++ (ts ++ (nodesOfAll ts).flatMap children))) :=
        (List.perm_append_comm_assoc _ _ _).cons t
      _ |>.Perm (t.nodes ++ nodesOfAll ts) := hfirst.append hrest

end

/-- The lists of children hold every node but the root. -/
theorem flatMap_children_perm (t : Tree) : (t.nodes.flatMap children).Perm t.nodes.dropLast := by
  have hall : (t :: t.nodes.flatMap children).Perm (t :: t.nodes.dropLast) := by
    refine t.perm_flatMap_children.trans ?_
    conv_lhs => rw [← List.dropLast_append_getLast? t t.getLast?_nodes]
    exact List.perm_append_singleton _ _
  exact hall.cons_inv

/-- A node is the child of one node at most. -/
theorem eq_of_mem_children {t p q u : Tree} (h : t.nodes.Nodup) (hp : p ∈ t.nodes)
    (hq : q ∈ t.nodes) (hup : u ∈ p.children) (huq : u ∈ q.children) : p = q := by
  have hchildren : (t.nodes.flatMap children).Nodup :=
    t.flatMap_children_perm.nodup_iff.mpr (h.sublist (List.dropLast_sublist _))
  have : Std.Symm (Function.onFun List.Disjoint children) := ⟨fun _ _ hd => List.disjoint_symm hd⟩
  by_contra hne
  exact (List.nodup_flatMap.mp hchildren).2.forall hp hq hne hup huq

/-- The root is no child. -/
theorem root_not_mem_children {t p : Tree} (h : t.nodes.Nodup) (hp : p ∈ t.nodes) :
    t ∉ p.children := by
  intro hroot
  have hmem : t ∈ t.nodes.dropLast :=
    t.flatMap_children_perm.mem_iff.mp (List.mem_flatMap.mpr ⟨p, hp, hroot⟩)
  rw [← List.dropLast_append_getLast? t t.getLast?_nodes, List.nodup_append] at h
  exact h.2.2 t hmem t (by simp) rfl

/-! ## The way to a node -/

mutual

/-- There is no way to a number that no node has. -/
theorem pathTo?_eq_none {i : Nat} : ∀ {t : Tree}, (∀ u ∈ t.nodes, u.index ≠ i) →
    t.pathTo? i = none
  | .leaf info text, h => if_neg (h (.leaf info text) (by simp [nodes]))
  | .branch info ts, h => by
    have hroot : info.index ≠ i := h (.branch info ts) (mem_nodes_self _)
    have hbelow : ∀ u ∈ nodesOfAll ts, u.index ≠ i := fun u hu =>
      h u (by rw [nodes]; exact List.mem_append_left _ hu)
    rw [pathTo?, if_neg hroot, pathToAny?_eq_none hbelow, Option.map_none]

/-- No path leads to a number that no node has. -/
theorem pathToAny?_eq_none {i : Nat} : ∀ {ts : List Tree}, (∀ u ∈ nodesOfAll ts, u.index ≠ i) →
    pathToAny? i ts = none
  | [], _ => rfl
  | t :: ts, h => by
    rw [nodesOfAll] at h
    rw [pathToAny?, pathTo?_eq_none fun u hu => h u (List.mem_append_left _ hu)]
    exact pathToAny?_eq_none fun u hu => h u (List.mem_append_right _ hu)

end

mutual

/-- The way to a node begins with the node and goes on with the one above it. -/
theorem exists_pathTo? : ∀ {t u : Tree}, (t.nodes.map index).Nodup → u ∈ t.nodes →
    ∃ above, t.pathTo? u.index = some (u :: above) ∧
      ((u = t ∧ above = []) ∨ ∃ p ∈ t.nodes, above.head? = some p ∧ u ∈ p.children)
  | .leaf info text, u, _, hu => by
    obtain rfl := List.mem_singleton.mp hu
    exact ⟨[], if_pos rfl, .inl ⟨rfl, rfl⟩⟩
  | .branch info ts, u, h, hu => by
    rw [nodes, List.map_append, List.nodup_append] at h
    rw [nodes, List.mem_append] at hu
    rcases hu with hu | hu
    · have hroot : info.index ≠ u.index := fun heq =>
        h.2.2 _ (List.mem_map_of_mem hu) info.index (by simp [index, Tree.info]) heq.symm
      obtain ⟨above, hpath, habove⟩ := exists_pathToAny? h.1 hu
      refine ⟨above ++ [.branch info ts], ?_, .inr ?_⟩
      · rw [pathTo?, if_neg hroot, hpath]
        rfl
      · rcases habove with ⟨hmem, rfl⟩ | ⟨p, hp, hhead, hmem⟩
        · exact ⟨.branch info ts, mem_nodes_self _, rfl, hmem⟩
        · exact ⟨p, by rw [nodes]; exact List.mem_append_left _ hp,
            by rw [List.head?_append, hhead]; rfl, hmem⟩
    · obtain rfl := List.mem_singleton.mp hu
      exact ⟨[], if_pos rfl, .inl ⟨rfl, rfl⟩⟩

/-- The path to a node begins with the node, and goes on with its parent unless the node is a
root. -/
theorem exists_pathToAny? : ∀ {ts : List Tree} {u : Tree}, ((nodesOfAll ts).map index).Nodup →
    u ∈ nodesOfAll ts → ∃ above, pathToAny? u.index ts = some (u :: above) ∧
      ((u ∈ ts ∧ above = []) ∨ ∃ p ∈ nodesOfAll ts, above.head? = some p ∧ u ∈ p.children)
  | [], _, _, hu => by cases hu
  | t :: ts, u, h, hu => by
    rw [nodesOfAll, List.map_append, List.nodup_append] at h
    rw [nodesOfAll, List.mem_append] at hu
    rcases hu with hu | hu
    · obtain ⟨above, hpath, habove⟩ := exists_pathTo? h.1 hu
      refine ⟨above, by rw [pathToAny?, hpath], ?_⟩
      rcases habove with ⟨rfl, rfl⟩ | ⟨p, hp, hhead, hmem⟩
      · exact .inl ⟨List.mem_cons_self, rfl⟩
      · exact .inr ⟨p, by rw [nodesOfAll]; exact List.mem_append_left _ hp, hhead, hmem⟩
    · have hnone : t.pathTo? u.index = none := pathTo?_eq_none fun v hv heq =>
        h.2.2 _ (List.mem_map_of_mem hv) _ (List.mem_map_of_mem hu) heq
      obtain ⟨above, hpath, habove⟩ := exists_pathToAny? h.2.1 hu
      refine ⟨above, by rw [pathToAny?, hnone]; exact hpath, ?_⟩
      rcases habove with ⟨hmem, rfl⟩ | ⟨p, hp, hhead, hmem⟩
      · exact .inl ⟨List.mem_cons_of_mem _ hmem, rfl⟩
      · exact .inr ⟨p, by rw [nodesOfAll]; exact List.mem_append_right _ hp, hhead, hmem⟩

end

/-- A tree is a table if its nodes are numbered along it. -/
theorem isTable_of_numbered {t : Tree} (h : t.nodes.map index = List.range t.nodes.length) :
    t.IsTable := by
  have hrising : (t.nodes.map index).Pairwise (· < ·) := by
    rw [h]
    exact List.pairwise_lt_range
  have hnodup : (t.nodes.map index).Nodup := hrising.imp Nat.ne_of_lt
  refine ⟨h, t.getLast?_nodes, fun u hu c hc => ⟨mem_nodes_trans hu (mem_nodes_of_mem_children hc),
    index_lt_of_mem_children hrising hu hc⟩, t.flatMap_children_perm, fun u hu => ?_⟩
  obtain ⟨above, hpath, habove⟩ := exists_pathTo? hnodup hu
  refine ⟨⟨u, above⟩, by rw [Cursor.at?, hpath], rfl, fun p => ?_⟩
  rcases habove with ⟨rfl, rfl⟩ | ⟨q, hq, hhead, huq⟩
  · exact ⟨fun hp => (by cases hp), fun ⟨hp, hup⟩ =>
      absurd hup (root_not_mem_children (.of_map _ hnodup) hp)⟩
  · rw [Cursor.parent?, hhead, Option.some_inj]
    exact ⟨fun heq => heq ▸ ⟨hq, huq⟩, fun ⟨hp, hup⟩ =>
      eq_of_mem_children (.of_map _ hnodup) hq hp huq hup⟩

end JavaFormat.Tree
