import JavaFormat.Proofs.Syntax.Conversion
import JavaFormat.Syntax.Flattening

/-!
# The table that a concrete tree is flattened into

The loop that fills a table does with its frames what the conversion does by recursion
(`flatten?_eq`): whatever is below a frame is added to the table as the conversion of the nodes
that the frame has pending says, so no row is ever missing. The loops over the table find the
nodes above and the leaves below. Together with what the conversion does, this says what the
table of a program holds (`flatten_program`).
-/

namespace JavaFormat

open JavaFormat.Tree

/-! ## Rows -/

/-- In a table that numbered nodes have been added to, the number of a node finds its row. -/
theorem getElem?_rows {rows : List TableNode} {ns : List Tree}
    (hnumbered : ns.map index = List.range' rows.length ns.length) {t : Tree} (ht : t ∈ ns) :
    (rows ++ ns.map row)[t.index]? = some t.row := by
  obtain ⟨i, hi, rfl⟩ := List.mem_iff_getElem.mp ht
  have hindex : ns[i].index = rows.length + i := by
    have hat := congrArg (·[i]?) hnumbered
    simpa [hi] using hat
  rw [hindex, List.getElem?_append_right (Nat.le_add_right _ _), Nat.add_sub_cancel_left,
    List.getElem?_map, List.getElem?_eq_getElem hi]
  rfl

/-- If the children have their rows, a branch reaches from the first of them to the last. -/
theorem spanOver?_eq {nodes : List TableNode} {ts : List Tree} (own : Span)
    (h : ∀ t ∈ ts, nodes[t.index]? = some t.row) :
    Flattening.spanOver? nodes own (ts.map index) = some (Harvest.spanOver own ts) := by
  cases ts with
  | nil => rfl
  | cons t ts =>
    have hfirst := h t List.mem_cons_self
    have hlast := h _ (List.getLast_mem (List.cons_ne_nil t ts))
    have hhead : ((t :: ts).map index).head? = some t.index := rfl
    have hback : ((t :: ts).map index).getLast? = some ((t :: ts).getLast (by simp)).index := by
      rw [List.getLast?_map, List.getLast?_eq_some_getLast (List.cons_ne_nil t ts)]
      rfl
    rw [Flattening.spanOver?, hhead, hback]
    simp [hfirst, hlast, Harvest.spanOver, Tree.row]

/-! ## The loop that fills a table -/

namespace Flattening

variable {source : Source}

/-- A conversion goes on as its next step says. -/
theorem run_eq (f : Flattening) : f.run source =
    match f.step source with
    | .next f' => f'.run source
    | .done => some (.ok f)
    | .failed e => some (.error e)
    | .noRow => none := by
  rw [run]
  split <;> rename_i h <;> rw [h]

/-- A conversion that can go on does so. -/
theorem run_of_next {f f' : Flattening} (h : f.step source = .next f') :
    f.run source = f'.run source := by
  rw [run_eq, h]

/-- A conversion whose next step fails ends with its error. -/
theorem run_of_failed {f : Flattening} {e : FormatError} (h : f.step source = .failed e) :
    f.run source = some (.error e) := by
  rw [run_eq, h]

/-- The state after `n` more nodes below the innermost frame have been converted. -/
def filled (frame : Frame) (above : List Frame) (nodes : List TableNode)
    (comments : List Comment) (root : Option Nat) (n : Nat) (h : Harvest) : Flattening where
  frames :=
    { frame with
      position := frame.position + n
      children := frame.children ++ h.trees.map index } :: above
  nodes := nodes ++ (nodesOfAll h.trees).map row
  comments := comments ++ h.comments
  root := root

/-- A frame whose nodes have been converted is left: its node becomes the branch around them. -/
theorem step_filled (frame : Frame) (above : List Frame) (nodes : List TableNode)
    (comments : List Comment) (root : Option Nat) (n : Nat) {start : Nat}
    {children : List Concrete} {below : Harvest} (hchildren : frame.children = [])
    (hpending : frame.pending[frame.position + n]? = none) (hlength : nodes.length = start)
    (hbelow : Concrete.harvestAll source start children = .ok below) :
    (filled frame above nodes comments root n below).step source =
      match NodeKind.ofName? frame.info.type with
      | none => .failed (.unhandledKind frame.info.type)
      | some kind =>
        let branch := below.enclose source frame.info kind frame.field
        let nodes := nodes ++ (nodesOfAll below.trees).map row ++ [branch.row]
        match above with
        | [] => .next ⟨[], nodes, comments ++ below.comments, some branch.index⟩
        | outer :: rest =>
          .next ⟨outer.add branch.index :: rest, nodes, comments ++ below.comments, root⟩ := by
  subst hlength
  have hharvested := (Concrete.harvested_of_harvestAll hbelow).1
  have hspan := spanOver?_eq (source.span frame.info.start frame.info.stop)
    fun t ht => getElem?_rows hharvested.numbered (mem_nodesOfAll_of_mem ht t.mem_nodes_self)
  have hnext : nodes.length + (nodesOfAll below.trees).length = below.next := hharvested.next.symm
  rw [step]
  dsimp only [filled]
  rw [hpending]
  dsimp only [leave]
  rw [hchildren, List.nil_append, hspan]
  dsimp only
  cases NodeKind.ofName? frame.info.type with
  | none => rfl
  | some kind =>
    have hrow : (below.enclose source frame.info kind frame.field).row =
        { index := below.next
          kind := kind
          span := Harvest.spanOver (source.span frame.info.start frame.info.stop) below.trees
          children := below.trees.map index
          field := frame.field } := rfl
    have hindex : (below.enclose source frame.info kind frame.field).index = below.next := rfl
    cases above <;> simp only [hrow, hindex, List.length_append, List.length_map, hnext]

mutual

/-- The next node below the innermost frame is converted as the conversion says. -/
theorem run_visit : ∀ (t : Concrete) (frame : Frame) (above : List Frame)
    (nodes : List TableNode) (comments : List Comment) (root : Option Nat),
    frame.pending[frame.position]? = some t →
    run source ⟨frame :: above, nodes, comments, root⟩ =
      match t.harvest source nodes.length with
      | .error e => some (.error e)
      | .ok h => run source (filled frame above nodes comments root 1 h)
  | .node info children, frame, above, nodes, comments, root, hnext => by
    have hstep : step source ⟨frame :: above, nodes, comments, root⟩ =
        visit source ⟨frame :: above, nodes, comments, root⟩ frame.advance above
          (.node info children) := by
      rw [step]
      dsimp only
      rw [hnext]
    rw [Concrete.harvest]
    dsimp only [visit, Concrete.info] at hstep
    cases hpart : info.part with
    | comment isLine =>
      rw [hpart] at hstep
      cases hs : info.text source with
      | error e =>
        rw [hs] at hstep
        exact run_of_failed hstep
      | ok s =>
        rw [hs] at hstep
        rw [run_of_next hstep]
        simp [filled, Frame.advance, nodesOfAll, bind, Except.bind, pure, Except.pure]
    | leaf kind =>
      rw [hpart] at hstep
      cases hs : info.text source with
      | error e =>
        rw [hs] at hstep
        exact run_of_failed hstep
      | ok s =>
        rw [hs] at hstep
        rw [run_of_next hstep]
        simp [filled, Frame.advance, Frame.add, nodesOfAll, Tree.nodes, Tree.row, Tree.index,
          Tree.kind, Tree.span, Tree.field, Tree.info, Tree.text?, Tree.children, bind,
          Except.bind, pure, Except.pure]
    | branch kind =>
      rw [hpart] at hstep
      rw [run_of_next hstep, run_siblings children _ _ _ _ _ rfl]
      cases hbelow : Concrete.harvestAll source nodes.length children with
      | error e => rfl
      | ok below =>
        dsimp only
        have hleave := step_filled (.enter info.field (.node info children))
          (frame.advance :: above) nodes comments root children.length rfl
          (by simp [Frame.enter, Concrete.children]) rfl hbelow
        have hkind : NodeKind.ofName? (Frame.enter info.field (.node info children)).info.type =
            some kind := ConcreteInfo.ofName?_of_part_eq_branch hpart
        rw [hkind] at hleave
        rw [run_of_next hleave]
        simp [filled, Frame.advance, Frame.add, Frame.enter, nodesOfAll, Harvest.enclose,
          Tree.nodes, Concrete.info, bind, Except.bind, pure, Except.pure]
    | unknown =>
      rw [hpart] at hstep
      exact run_of_failed hstep

/-- The nodes below the innermost frame are converted one after the other. -/
theorem run_siblings : ∀ (ts : List Concrete) (frame : Frame) (above : List Frame)
    (nodes : List TableNode) (comments : List Comment) (root : Option Nat),
    frame.pending.drop frame.position = ts →
    run source ⟨frame :: above, nodes, comments, root⟩ =
      match Concrete.harvestAll source nodes.length ts with
      | .error e => some (.error e)
      | .ok h => run source (filled frame above nodes comments root ts.length h)
  | [], frame, above, nodes, comments, root, _ => by
    simp [Concrete.harvestAll, filled, nodesOfAll, pure, Except.pure]
  | t :: ts, frame, above, nodes, comments, root, hdrop => by
    have hnext : frame.pending[frame.position]? = some t := by
      have hhead := congrArg List.head? hdrop
      simpa using hhead
    have hrest : frame.pending.drop (frame.position + 1) = ts := by
      have htail := congrArg List.tail hdrop
      simpa using htail
    rw [run_visit t frame above nodes comments root hnext, Concrete.harvestAll]
    cases hfirst : t.harvest source nodes.length with
    | error e => rfl
    | ok first =>
      have hlength : (nodes ++ (nodesOfAll first.trees).map row).length = first.next := by
        rw [List.length_append, List.length_map,
          (Concrete.harvested_of_harvest hfirst).1.next]
      dsimp only [filled]
      rw [run_siblings ts _ _ _ _ _ hrest, hlength]
      simp only [bind, Except.bind]
      cases Concrete.harvestAll source first.next ts with
      | error e => rfl
      | ok rest =>
        have hnodes : nodesOfAll (first.trees ++ rest.trees) =
            nodesOfAll first.trees ++ nodesOfAll rest.trees := by
          simp only [nodesOfAll_eq_flatMap, List.flatMap_append]
        simp [filled, Harvest.append, hnodes, pure, Except.pure, Nat.add_assoc, Nat.add_comm 1]

end

end Flattening

/-- The loop comes to the table of what the conversion comes to, or to the error that it comes
to; no row is missing. -/
theorem Concrete.flatten?_eq (source : Source) (t : Concrete) :
    t.flatten? source = some ((t.convert source).map fun (whole, comments) =>
      NodeTable.of whole comments) := by
  obtain ⟨info, children⟩ := t
  rw [flatten?, Flattening.run_siblings children _ _ _ _ _ rfl, convert]
  cases hbelow : harvestAll source 0 children with
  | error e => simp [bind, Except.bind, Except.map]
  | ok below =>
    have hleave := Flattening.step_filled (.enter none (.node info children)) [] [] [] none
      children.length rfl (by simp [Frame.enter, Concrete.children]) rfl hbelow
    have hinfo : (Frame.enter none (.node info children)).info = info := rfl
    rw [hinfo] at hleave
    dsimp only
    cases hkind : NodeKind.ofName? info.type with
    | none =>
      rw [hkind] at hleave
      rw [Flattening.run_of_failed hleave]
      simp [bind, Except.bind, Except.map]
    | some kind =>
      rw [hkind] at hleave
      rw [Flattening.run_of_next hleave, Flattening.run_eq]
      simp [Flattening.step, Flattening.result?, NodeTable.of, Harvest.enclose, Tree.nodes,
        Frame.enter, bind, Except.bind, pure, Except.pure, Except.map]

/-! ## The loops over a table -/

namespace NodeTable

/-- Setting several places of a list to one value. -/
theorem getElem?_foldl_set {α : Type} (is : List Nat) (a : α) (as : List α) (i : Nat) :
    (is.foldl (fun as j => as.set j a) as)[i]? =
      if i ∈ is then as[i]?.map fun _ => a else as[i]? := by
  induction is generalizing as with
  | nil => simp
  | cons j is ih =>
    rw [List.foldl_cons, ih, List.getElem?_set]
    by_cases hj : j = i
    · subst hj
      by_cases hlt : j < as.length <;> simp [hlt]
    · simp [hj, Ne.symm hj]

/-- A node is noted at its children and nowhere else. -/
theorem getElem?_noteParent (parents : List (Option Nat)) (node : TableNode) (i : Nat) :
    (noteParent parents node)[i]? =
      if i ∈ node.children then parents[i]?.map fun _ => some node.index else parents[i]? :=
  getElem?_foldl_set _ _ _ _

/-- Noting a parent leaves as many entries as there were. -/
theorem length_noteParent (parents : List (Option Nat)) (node : TableNode) :
    (noteParent parents node).length = parents.length := by
  rw [noteParent]
  generalize node.children = children
  induction children generalizing parents with
  | nil => rfl
  | cons child children ih => exact (ih _).trans (List.length_set ..)

/-- Where no node has a child, nothing is noted. -/
theorem getElem?_foldl_noteParent {nodes : List TableNode} {i : Nat}
    (h : ∀ node ∈ nodes, i ∉ node.children) (parents : List (Option Nat)) :
    (nodes.foldl noteParent parents)[i]? = parents[i]? := by
  induction nodes generalizing parents with
  | nil => rfl
  | cons node nodes ih =>
    obtain ⟨hnode, hnodes⟩ := List.forall_mem_cons.mp h
    rw [List.foldl_cons, ih hnodes, getElem?_noteParent, if_neg hnode]

/-- If no two nodes have a child in common, each is noted at its children in the end. -/
theorem getElem?_foldl_noteParent_of_mem {nodes : List TableNode}
    (hnodup : (nodes.flatMap TableNode.children).Nodup) {node : TableNode} (hnode : node ∈ nodes)
    {i : Nat} (hi : i ∈ node.children) {parents : List (Option Nat)} (hlt : i < parents.length) :
    (nodes.foldl noteParent parents)[i]? = some (some node.index) := by
  induction nodes generalizing parents with
  | nil => cases hnode
  | cons first nodes ih =>
    rw [List.flatMap_cons, List.nodup_append] at hnodup
    rw [List.foldl_cons]
    rcases List.mem_cons.mp hnode with rfl | hnode
    · have hothers : ∀ other ∈ nodes, i ∉ other.children := fun other hother hmem =>
        hnodup.2.2 i hi i (List.mem_flatMap.mpr ⟨other, hother, hmem⟩) rfl
      rw [getElem?_foldl_noteParent hothers, getElem?_noteParent, if_pos hi]
      simp [hlt]
    · exact ih hnodup.2.1 hnode (by rwa [length_noteParent])

/-- The rows of nodes that are in the table are found by their numbers. -/
theorem mapM_getElem?_rows {table : NodeTable} {ts : List Tree}
    (h : ∀ t ∈ ts, table.nodes[t.index]? = some t.row) :
    (ts.map index).mapM (table.nodes[·]?) = some (ts.map row) := by
  induction ts with
  | nil => rfl
  | cons t ts ih =>
    obtain ⟨ht, hts⟩ := List.forall_mem_cons.mp h
    simp [ht, ih hts]

mutual

/-- Reading a node of a tree is reading its leaves. -/
theorem readLeaves?_row (table : NodeTable) (fuel : Nat) (stack : List TableNode) : ∀ t : Tree,
    (∀ u ∈ t.nodes, table.nodes[u.index]? = some u.row) →
      table.readLeaves? (t.nodes.length + fuel) (t.row :: stack) =
        (table.readLeaves? fuel stack).map (t.leaves.map row ++ ·)
  | .leaf info text, _ => by
    rw [Tree.nodes, List.length_singleton, Nat.add_comm, readLeaves?]
    rfl
  | .branch info [], _ => by
    rw [Tree.nodes, nodesOfAll, List.nil_append, List.length_singleton, Nat.add_comm, readLeaves?]
    rfl
  | .branch info (c :: cs), hrows => by
    have hbelow : ∀ u ∈ nodesOfAll (c :: cs), table.nodes[u.index]? = some u.row := fun u hu =>
      hrows u (by rw [Tree.nodes]; exact List.mem_append_left _ hu)
    have hchildren := mapM_getElem?_rows fun t ht =>
      hbelow t (mem_nodesOfAll_of_mem ht t.mem_nodes_self)
    have hlength : (Tree.branch info (c :: cs)).nodes.length + fuel =
        (nodesOfAll (c :: cs)).length + fuel + 1 := by
      rw [Tree.nodes, List.length_append, List.length_singleton]
      omega
    have hrow : (Tree.branch info (c :: cs)).row.children = (c :: cs).map index := rfl
    rw [hlength, readLeaves?, hrow, if_neg (by simp), hchildren]
    exact readLeaves?_rows table fuel stack (c :: cs) hbelow

/-- Reading several nodes is reading their leaves one after the other. -/
theorem readLeaves?_rows (table : NodeTable) (fuel : Nat) (stack : List TableNode) :
    ∀ ts : List Tree, (∀ u ∈ nodesOfAll ts, table.nodes[u.index]? = some u.row) →
      table.readLeaves? ((nodesOfAll ts).length + fuel) (ts.map row ++ stack) =
        (table.readLeaves? fuel stack).map ((leavesOfAll ts).map row ++ ·)
  | [], _ => by simp [nodesOfAll, leavesOfAll]
  | t :: ts, hrows => by
    rw [nodesOfAll, List.forall_mem_append] at hrows
    rw [nodesOfAll, List.length_append, Nat.add_assoc, List.map_cons, List.cons_append,
      readLeaves?_row table _ _ t hrows.1, readLeaves?_rows table fuel stack ts hrows.2, Option.map_map,
      leavesOfAll, List.map_append]
    simp [Function.comp_def]

end

/-- The table of a numbered tree has the row of each of its nodes at its number. -/
theorem getElem?_of {whole : Tree} (comments : List Comment)
    (hnumbered : whole.nodes.map index = List.range whole.nodes.length) {u : Tree}
    (hu : u ∈ whole.nodes) : (of whole comments).nodes[u.index]? = some u.row :=
  @getElem?_rows [] _ (by rw [hnumbered, List.range_eq_range']; rfl) _ hu

/-- The leaves read off the table of a numbered tree are those of the tree. -/
theorem leaves?_of {whole : Tree} (comments : List Comment)
    (hnumbered : whole.nodes.map index = List.range whole.nodes.length) :
    (of whole comments).leaves? whole.index = some (whole.leaves.map row) := by
  have hread := readLeaves?_row (of whole comments) 1 [] whole
    fun u hu => getElem?_of comments hnumbered hu
  have hlength : (of whole comments).nodes.length = whole.nodes.length := List.length_map ..
  rw [leaves?, getElem?_of comments hnumbered whole.mem_nodes_self]
  dsimp only
  rw [hlength, hread, readLeaves?]
  simp

/-- A table of nodes in which every node stands behind its children and every node but the root
is the child of one other, and the loops over it find what they are to find. -/
structure IsTree (table : NodeTable) : Prop where
  numbered : table.nodes.map TableNode.index = List.range table.nodes.length
  /-- The root is the last node. -/
  last : table.nodes.length = table.root + 1
  /-- A child has a smaller number than its parent. -/
  below : ∀ node ∈ table.nodes, ∀ i ∈ node.children, i < node.index
  /-- The lists of children hold the numbers of all nodes but the root once. -/
  once : (table.nodes.flatMap TableNode.children).Perm (List.range table.root)
  /-- Each node has an entry among the parents, which is the number of the node that it is a child
  of, if there is one. -/
  parents : ∀ i < table.nodes.length, ∃ above, table.parents[i]? = some above ∧
    ∀ p, above = some p ↔ ∃ node ∈ table.nodes, node.index = p ∧ i ∈ node.children

/-- If every node is the child of one other at most, its parent is noted. -/
theorem exists_parents {table : NodeTable}
    (hnodup : (table.nodes.flatMap TableNode.children).Nodup) {i : Nat}
    (hi : i < table.nodes.length) : ∃ above, table.parents[i]? = some above ∧
      ∀ p, above = some p ↔ ∃ node ∈ table.nodes, node.index = p ∧ i ∈ node.children := by
  by_cases hchild : ∃ node ∈ table.nodes, i ∈ node.children
  · obtain ⟨node, hnode, hmem⟩ := hchild
    have hnoted {other : TableNode} (hother : other ∈ table.nodes) (hmem : i ∈ other.children) :
        table.parents[i]? = some (some other.index) :=
      getElem?_foldl_noteParent_of_mem hnodup hother hmem (by simpa using hi)
    refine ⟨some node.index, hnoted hnode hmem, fun p => ⟨?_, ?_⟩⟩
    · rintro ⟨⟩
      exact ⟨node, hnode, rfl, hmem⟩
    · rintro ⟨other, hother, rfl, hmem'⟩
      exact Option.some.inj ((hnoted hnode hmem).symm.trans (hnoted hother hmem'))
  · have hnone : ∀ node ∈ table.nodes, i ∉ node.children := fun node hnode hmem =>
      hchild ⟨node, hnode, hmem⟩
    refine ⟨none, ?_, fun p => ⟨fun h => (by cases h), ?_⟩⟩
    · rw [NodeTable.parents, getElem?_foldl_noteParent hnone]
      simp [hi]
    · rintro ⟨node, hnode, -, hmem⟩
      exact absurd hmem (hnone node hnode)

/-- The table of a numbered tree is a tree. -/
theorem isTree_of {whole : Tree} (h : whole.IsTable) (comments : List Comment) :
    (of whole comments).IsTree := by
  have hnodes : (of whole comments).nodes = whole.nodes.map row := rfl
  have hindices : (of whole comments).nodes.map TableNode.index = whole.nodes.map index := by
    rw [hnodes, List.map_map]
    rfl
  have hlast : whole.nodes.length = whole.index + 1 := by
    have hat := congrArg List.getLast? h.numbered
    rw [List.getLast?_map, h.last] at hat
    cases hlength : whole.nodes.length with
    | zero => simp [hlength] at hat
    | succ n => simpa [hlength, List.getLast?_range] using hat.symm
  have hchildren : (of whole comments).nodes.flatMap TableNode.children =
      (whole.nodes.flatMap children).map index := by
    rw [hnodes, List.flatMap_map, List.map_flatMap]
    rfl
  have honce : ((of whole comments).nodes.flatMap TableNode.children).Perm
      (List.range whole.index) := by
    rw [hchildren]
    have hperm := h.once.map index
    rwa [List.map_dropLast, h.numbered, hlast, List.range_succ, List.dropLast_concat] at hperm
  refine ⟨?_, (List.length_map ..).trans hlast, ?_, honce, fun i hi =>
    exists_parents (honce.nodup_iff.mpr List.nodup_range) hi⟩
  · rw [hindices, h.numbered, hnodes, List.length_map]
  · intro node hnode i hi
    obtain ⟨u, hu, rfl⟩ := List.mem_map.mp hnode
    obtain ⟨c, hc, rfl⟩ := List.mem_map.mp hi
    exact (h.below u hu c hc).2

end NodeTable

/-! ## What the table of a program holds -/

namespace Concrete

/-- What becomes of a node that is no comment, as a row of a table. -/
structure Enters (source : Source) (table : NodeTable) (c : Concrete) (node : TableNode) :
    Prop where
  kind : c.info.kind? = some node.kind
  /-- A token or a verbatim node has its slice of the source for a text. -/
  text : if c.info.isWritten then ∃ s, c.info.text source = .ok s ∧ node.text = some s
    else node.text = none
  /-- Its children play the parts that the nodes below it play. -/
  fields : ∃ rows, node.children.mapM (table.nodes[·]?) = some rows ∧
    rows.map TableNode.field = c.parts.map (·.info.field)
  span : node.children = [] → node.span = source.span c.info.start c.info.stop

/-- Whether a table holds what a concrete tree is to become. -/
structure Tabulated (source : Source) (t : Concrete) (table : NodeTable) : Prop where
  tree : table.IsTree
  /-- The nodes of the table are the reached nodes that are no comments. -/
  nodes : List.Forall₂ (Enters source table) (t.reached.filter (!·.info.isComment)) table.nodes
  /-- What is read off the table from its root are the reached nodes below which nothing is
  left. -/
  leaves : ∃ leaves, table.leaves? table.root = some leaves ∧
    List.Forall₂ (Enters source table) (t.reached.filter isEnd) leaves
  /-- The comments are the reached comments, each of them once. -/
  remarks : ∃ found, List.Forall₂ (Remarks source) (t.reached.filter (·.info.isComment)) found ∧
    table.comments.Perm found
  ordered : table.comments.Pairwise fun a b => a.span.start.offset ≤ b.span.start.offset

/-- What has become a node of a tree enters the table of the tree as its row. -/
theorem Becomes.enters {source : Source} {c : Concrete} {u whole : Tree}
    (h : Becomes source c u) (comments : List Comment) (htable : whole.IsTable)
    (hu : u ∈ whole.nodes) : Enters source (.of whole comments) c u.row where
  kind := h.kind
  text := h.text
  fields := by
    refine ⟨u.children.map row, NodeTable.mapM_getElem?_rows fun t ht =>
      NodeTable.getElem?_of comments htable.numbered (htable.below u hu t ht).1, ?_⟩
    rw [List.map_map, ← h.fields]
    rfl
  span hnone := h.span (List.map_eq_nil_iff.mp hnone)

/-- What has become some nodes of a tree enters the table of the tree as their rows. -/
theorem enters_of_becomes {source : Source} {cs : List Concrete} {us : List Tree} {whole : Tree}
    (h : List.Forall₂ (Becomes source) cs us) (comments : List Comment) (htable : whole.IsTable)
    (hus : ∀ u ∈ us, u ∈ whole.nodes) :
    List.Forall₂ (Enters source (.of whole comments)) cs (us.map row) := by
  induction h with
  | nil => exact .nil
  | cons hbecomes _ ih =>
    obtain ⟨hu, hus⟩ := List.forall_mem_cons.mp hus
    exact .cons (hbecomes.enters comments htable hu) (ih hus)

/-- The table of what a concrete tree is flattened to holds what it is to become. -/
theorem Flattened.tabulated {source : Source} {t : Concrete} {whole : Tree}
    {comments : List Comment} (h : t.Flattened source whole comments) :
    t.Tabulated source (.of whole comments) where
  tree := NodeTable.isTree_of h.table comments
  nodes := enters_of_becomes h.nodes comments h.table fun _ hu => hu
  leaves := ⟨_, NodeTable.leaves?_of comments h.table.numbered,
    enters_of_becomes h.leaves comments h.table fun _ hu => mem_nodes_of_mem_leaves hu⟩
  remarks := h.remarks
  ordered := h.ordered

/-- The loop that fills a table does what the conversion does by recursion. A program is not
flattened just if a node that is reached has a name that is not known, and the error says
the name of such a node. In any other case its table is a tree, with the nodes that are
reached and no comments for rows, whose leaves are the nodes below which nothing is left; and
the comments that are reached stand beside it in the order of the source. -/
theorem flatten_program (source : Source) {t : Concrete} (hnamed : t.info.named = true)
    (htype : t.info.type = "program") (hreadable : Readable source t.reached) :
    t.flatten? source =
        some ((t.convert source).map fun (whole, comments) => .of whole comments) ∧
    (∀ name, t.flatten? source = some (.error (.unhandledKind name)) →
      ∃ c ∈ t.reached, c.info.isUnknown = true ∧ c.info.type = name) ∧
    ((∃ c ∈ t.reached, c.info.isUnknown = true) →
      ∃ name, t.flatten? source = some (.error (.unhandledKind name))) ∧
    ((∀ c ∈ t.reached, c.info.isUnknown = false) →
      ∃ table, t.flatten? source = some (.ok table) ∧ t.Tabulated source table) := by
  obtain ⟨info, children⟩ := t
  refine ⟨flatten?_eq source _, ?_⟩
  rw [flatten?_eq]
  cases hconvert : (node info children).convert source with
  | ok converted =>
    obtain ⟨whole, comments⟩ := converted
    obtain ⟨hflattened, hknown⟩ := flattened_of_convert hnamed htype hconvert
    refine ⟨fun name hname => (by cases hname), fun ⟨c, hc, hu⟩ => ?_, fun _ =>
      ⟨_, rfl, hflattened.tabulated⟩⟩
    exact absurd hu (by simp [hknown c hc])
  | error e =>
    obtain ⟨c, hc, hu, rfl⟩ := exists_unknown_of_convert hnamed htype hreadable hconvert
    refine ⟨fun name hname => ⟨c, hc, hu, ?_⟩, fun _ => ⟨_, rfl⟩, fun hall => ?_⟩
    · cases hname
      rfl
    · exact absurd hu (by simp [hall c hc])

/-- The statement becomes a table of four rows, and the remark a comment. -/
theorem flatten_program_remark :
    remark.info.named = true ∧ remark.info.type = "program" ∧
      Readable remarkSource remark.reached ∧ ∃ table,
      remark.flatten? remarkSource = some (.ok table) ∧ table.nodes.length = 4 ∧
      table.comments = [⟨"// b", true, remarkSource.span 3 7⟩] ∧
      remark.Tabulated remarkSource table := by
  have hreadable : Readable remarkSource remark.reached := readable_of_all (by decide)
  have hconvert : remark.convert remarkSource =
      .ok (remarkTree, [⟨"// b", true, remarkSource.span 3 7⟩]) := by rfl
  obtain ⟨heq, -, -, hknown⟩ := flatten_program remarkSource rfl rfl hreadable
  obtain ⟨table, htable, htabulated⟩ := hknown (by decide)
  rw [hconvert] at heq
  obtain rfl : .of remarkTree [⟨"// b", true, remarkSource.span 3 7⟩] = table :=
    Except.ok.inj (Option.some.inj (heq.symm.trans htable))
  exact ⟨rfl, rfl, hreadable, _, htable, rfl, rfl, htabulated⟩

/-- The source of a block comment. -/
def nestedSource : Source := Source.ofText "/* // a */"

/-- A block comment with a line comment in it. -/
def nested : Concrete :=
  .node ⟨"program", true, 0, 10, none, false, false⟩ [
    .node ⟨"block_comment", true, 0, 10, none, false, false⟩ [
      .node ⟨"line_comment", true, 3, 7, none, false, false⟩ []]]

/-- A comment that is in another one is left out, although it is below no anonymous and no
verbatim node. -/
theorem nested_left_out :
    nested.info.named = true ∧ nested.info.type = "program" ∧
      (∀ c ∈ nested.shown ConcreteInfo.isWritten, c.info.isUnknown = false) ∧
      Readable nestedSource (nested.shown ConcreteInfo.isWritten) ∧
      ¬∃ table found, nested.flatten? nestedSource = some (.ok table) ∧
        List.Forall₂ (Remarks nestedSource)
          ((nested.shown ConcreteInfo.isWritten).filter (·.info.isComment)) found ∧
        table.comments.Perm found := by
  have hreadable : Readable nestedSource (nested.shown ConcreteInfo.isWritten) :=
    readable_of_all (by decide)
  refine ⟨rfl, rfl, by decide, hreadable, ?_⟩
  rintro ⟨table, found, hflatten, hfound, hperm⟩
  rw [flatten?_eq] at hflatten
  obtain ⟨whole, comments, hconvert, rfl⟩ : ∃ whole comments,
      nested.convert nestedSource = .ok (whole, comments) ∧ .of whole comments = table := by
    cases hconvert : nested.convert nestedSource with
    | error e => simp [hconvert, Except.map] at hflatten
    | ok converted => exact ⟨_, _, rfl, by simpa [hconvert, Except.map] using hflatten⟩
  cases hconvert
  have hlength := hfound.length_eq.trans hperm.length_eq.symm
  exact absurd hlength (by decide)

end Concrete

end JavaFormat
