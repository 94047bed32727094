import JavaFormat.Proofs.Layout.Marks
import JavaFormat.Proofs.Layout.SpotTrees
import JavaFormat.Proofs.Syntax.Spans

/-!
# From texts to nodes

What stands in a printed text is as many line breaks apart as was printed there, and that is
handed down from the leaves and comments of a tree to its nodes: those of a node stretch from
the first comment in front of it to the last one behind it, and to each of them belongs a spot
of the tree that was printed. So the nodes themselves are as far apart as the layout fixes.
-/

namespace JavaFormat

open Layout

/-! ## Trees at other positions -/

/-- Trees that are the same but for positions have the same number. -/
theorem Tree.index_eq_of_outline {t t' : Tree} (h : t.outline = t'.outline) :
    t.index = t'.index := by
  rw [← t.index_outline, h, t'.index_outline]

/-- Trees that are the same but for positions have the same nodes but for positions. -/
theorem Tree.exists_node_of_map_outline {ts us : List Tree}
    (h : ts.map outline = us.map outline) {u : Tree} (hu : u ∈ nodesOfAll us) :
    ∃ t ∈ nodesOfAll ts, t.outline = u.outline := by
  have hnodes : (nodesOfAll us).map outline = (nodesOfAll ts).map outline := by
    rw [← nodesOfAll_outlineOfAll, ← nodesOfAll_outlineOfAll, outlineOfAll_eq_map,
      outlineOfAll_eq_map, h]
  have hmem := List.mem_map_of_mem hu (f := outline)
  rw [hnodes] at hmem
  exact List.mem_map.mp hmem

/-- The span of a node from its first comment to its last one. -/
def Attachments.extent (as : Attachments) (t : Tree) : Span := (as.at t.index).extent t.span

/-- A node with children or a leaf that is no compilation unit, its comments being shown in order
and a body having more than one child. -/
structure Attachments.Framed (as : Attachments) (t : Tree) : Prop extends as.Orderly t where
  unit : t.kind ≠ .program
  body : t.kind.isBody = true → t.children.length ≠ 1
  bare : t.children = [] → t.text?.isSome = true

/-- The same comments are at each of several nodes but for positions. -/
def Attachments.Alike (as as' : Attachments) (ts : List Tree) : Prop :=
  ∀ t ∈ ts, (as.at t.index).outline t.kind = (as'.at t.index).outline t.kind

namespace NodeComments

variable {k : NodeKind} {c c' : NodeComments}

/-- Whether there are comments in front of a node is told by the outline. -/
theorem leading_eq_nil_iff (h : c.outline k = c'.outline k) : c.leading = [] ↔ c'.leading = [] := by
  rw [← List.map_eq_nil_iff (f := AttachedComment.outlineAbove), ← leading_outline k, h,
    leading_outline, List.map_eq_nil_iff]

/-- Whether there are comments behind a node is told by the outline. -/
theorem trailing_eq_nil_iff (h : c.outline k = c'.outline k) :
    c.trailing = [] ↔ c'.trailing = [] := by
  rw [← List.map_eq_nil_iff (f := AttachedComment.outlineBehind), ← trailing_outline k, h,
    trailing_outline, List.map_eq_nil_iff]

/-- Whether a node has no comments at all is told by the outline. -/
theorem eq_empty_of_outline (h : c.outline k = c'.outline k) (hempty : c = {}) : c' = {} := by
  subst hempty
  have hleading := (leading_eq_nil_iff h).mp rfl
  have htrailing := (trailing_eq_nil_iff h).mp rfl
  have hdangling := dangling_eq_nil_of_outline h.symm rfl
  cases c'
  simp_all

/-- Once a comment waits all behind it do, as the outlines tell. -/
theorem keepsWaiting_of_outline (h : c.outline k = c'.outline k)
    (hwaits : KeepsWaiting c.trailing) : KeepsWaiting c'.trailing := by
  have houtlines : c.trailing.map AttachedComment.outlineBehind =
      c'.trailing.map AttachedComment.outlineBehind := congrArg trailing h
  have hmap : ∀ as : List AttachedComment,
      KeepsWaiting (as.map AttachedComment.outlineBehind) ↔ KeepsWaiting as := fun as =>
    List.pairwise_map
  rw [← hmap, houtlines] at hwaits
  exact (hmap _).mp hwaits

end NodeComments

namespace Attachments

variable {as as' : Attachments} {t t' : Tree}

/-- Comments are shown in order whatever the positions of the nodes are. -/
theorem orderly_outline : as.Orderly t.outline ↔ as.Orderly t := by
  have hparts : ∀ u v : Tree, as.Parts u.outline v.outline ↔ as.Parts u v := fun u v =>
    ⟨fun h => ⟨by simpa using h.semicolon, by simpa using h.modifiers⟩,
      fun h => ⟨by simpa using h.semicolon, by simpa using h.modifiers⟩⟩
  have hchain : t.outline.children.IsChain as.Parts ↔ t.children.IsChain as.Parts := by
    rw [Tree.children_outline, List.isChain_map]
    exact ⟨fun h => h.imp fun u v => (hparts u v).mp, fun h => h.imp fun u v => (hparts u v).mpr⟩
  constructor
  · rintro ⟨hown, hdangling, hwaiting, hfirst, hlast, hleading, htrailing, hneighbours⟩
    exact ⟨by simpa using hown, by simpa using hdangling, by simpa using hwaiting,
      by simpa using hfirst, by simpa using hlast, by simpa using hleading,
      by simpa using htrailing, hchain.mp hneighbours⟩
  · rintro ⟨hown, hdangling, hwaiting, hfirst, hlast, hleading, htrailing, hneighbours⟩
    exact ⟨by simpa using hown, by simpa using hdangling, by simpa using hwaiting,
      by simpa using hfirst, by simpa using hlast, by simpa using hleading,
      by simpa using htrailing, hchain.mpr hneighbours⟩

/-- Comments are shown in order if those at the same nodes are. -/
theorem Orderly.of_alike (h : as.Orderly t) (has : as.Alike as' t.nodes) : as'.Orderly t := by
  have hself := has t t.mem_nodes_self
  have hchild : ∀ u ∈ t.children, (as.at u.index).outline u.kind =
      (as'.at u.index).outline u.kind := fun u hu => has u (Tree.mem_nodes_of_mem_children hu)
  exact {
    own := fun hk => NodeComments.eq_empty_of_outline hself (h.own hk)
    dangling := fun hk => NodeComments.dangling_eq_nil_of_outline hself.symm (h.dangling hk)
    waiting := NodeComments.keepsWaiting_of_outline hself h.waiting
    first := fun hk u hu => (NodeComments.leading_eq_nil_iff
      (hchild u (List.mem_of_mem_head? hu))).mp (h.first hk u hu)
    last := fun hk u hu => (NodeComments.trailing_eq_nil_iff
      (hchild u (List.mem_of_getLast? hu))).mp (h.last hk u hu)
    leading := fun hk u hu => (NodeComments.leading_eq_nil_iff (hchild u hu)).mp (h.leading hk u hu)
    trailing := fun hk u hu =>
      (NodeComments.trailing_eq_nil_iff (hchild u hu)).mp (h.trailing hk u hu)
    neighbours := h.neighbours.imp_of_mem_imp fun u v hu hv hparts =>
      ⟨fun hk => (NodeComments.trailing_eq_nil_iff (hchild u hu)).mp (hparts.semicolon hk),
        fun hk => (NodeComments.leading_eq_nil_iff (hchild v hv)).mp (hparts.modifiers hk)⟩ }

/-- The same goes for a tree at other positions. -/
theorem Orderly.of_outline (h : as.Orderly t) (has : as.Alike as' t.nodes)
    (ht : t.outline = t'.outline) : as'.Orderly t' :=
  orderly_outline.mp (ht ▸ orderly_outline.mpr (h.of_alike has))

/-- A tree at other positions is framed if it is with the same comments. -/
theorem Framed.of_outline (h : as.Framed t) (has : as.Alike as' t.nodes)
    (ht : t.outline = t'.outline) : as'.Framed t' := by
  have hkind : t'.kind = t.kind := by rw [← Tree.kind_outline, ← ht, Tree.kind_outline]
  have hchildren : t'.children.map Tree.outline = t.children.map Tree.outline := by
    rw [← Tree.children_outline, ← ht, Tree.children_outline]
  have hlength : t'.children.length = t.children.length := by
    simpa using congrArg List.length hchildren
  have htext : t'.text? = t.text? := by rw [← Tree.text?_outline, ← ht, Tree.text?_outline]
  refine ⟨h.toOrderly.of_outline has ht, ?_, ?_, ?_⟩
  · rw [hkind]
    exact h.unit
  · rw [hkind, hlength]
    exact h.body
  · intro hnil
    rw [htext]
    refine h.bare (List.length_eq_zero_iff.mp ?_)
    rw [← hlength, hnil, List.length_nil]

end Attachments

/-! ## What is shown of trees -/

/-- What is shown of a comment is told by its outline. -/
theorem Comment.rows_outline (c : Comment) : c.outline.rows = c.rows := c.rows_settled

namespace NodeComments

variable {α β : Type} {f : Comment → List α}

/-- What is around a node is told by the outline if it is for each comment. -/
theorem frame_outline (hf : ∀ c, f c.outline = f c) (k : NodeKind) (c : NodeComments)
    (inner : List α) : (c.outline k).frame f inner = c.frame f inner := by
  have habove : ∀ a : AttachedComment, f a.outlineAbove.comment = f a.comment :=
    fun a => hf a.comment
  have hbehind : ∀ a : AttachedComment, f a.outlineBehind.comment = f a.comment :=
    fun a => hf a.comment
  simp only [frame, leading_outline, trailing_outline, List.flatMap_map, habove, hbehind]

/-- What is inside a node is told by the outline if it is for each comment. -/
theorem tuck_outline (hf : ∀ c, f c.outline = f c) (k : NodeKind) (c : NodeComments)
    (inners : List (List α)) : (c.outline k).tuck f inners = c.tuck f inners := by
  have hinside : (c.outline k).dangling.flatMap (fun a => f a.comment) =
      c.dangling.flatMap fun a => f a.comment := by
    have hcomments := congrArg (List.flatMap f) (map_comment_dangling_outline k c)
    rw [List.flatMap_map, List.flatMap_map] at hcomments
    exact hcomments.trans (List.flatMap_congr fun a _ => hf a.comment)
  cases inners with
  | nil => rfl
  | cons => rw [tuck, tuck, hinside]

/-- What there is of a comment in front of a node is around it. -/
theorem mem_frame_leading {c : NodeComments} {inner : List α} {a : AttachedComment}
    (ha : a ∈ c.leading) {x : α} (hx : x ∈ f a.comment) : x ∈ c.frame f inner :=
  List.mem_append_left _ (List.mem_flatMap.mpr ⟨a, ha, hx⟩)

/-- What there is of a comment behind a node is around it. -/
theorem mem_frame_trailing {c : NodeComments} {inner : List α} {a : AttachedComment}
    (ha : a ∈ c.trailing) {x : α} (hx : x ∈ f a.comment) : x ∈ c.frame f inner :=
  List.mem_append_right _ (List.mem_append_right _ (List.mem_flatMap.mpr ⟨a, ha, hx⟩))

/-- What there is of a child is inside its parent. -/
theorem mem_frame_tuck {c : NodeComments} {inners : List (List α)} {inner : List α}
    (hinner : inner ∈ inners) {x : α} (hx : x ∈ inner) :
    x ∈ c.frame f (c.tuck f inners).flatten := by
  refine List.mem_append_right _ (List.mem_append_left _ ?_)
  cases inners with
  | nil => cases hinner
  | cons first rest =>
    rw [tuck, List.flatten_cons]
    rcases List.mem_cons.mp hinner with rfl | hrest
    · exact List.mem_append_left _ (List.mem_append_left _ hx)
    · exact List.mem_append_right _ (List.mem_flatten.mpr ⟨inner, hrest, hx⟩)

/-- What there is of a comment inside a node with children is inside it. -/
theorem mem_frame_dangling {c : NodeComments} {inners : List (List α)} (hne : inners ≠ [])
    {a : AttachedComment} (ha : a ∈ c.dangling) {x : α} (hx : x ∈ f a.comment) :
    x ∈ c.frame f (c.tuck f inners).flatten := by
  obtain ⟨first, rest, rfl⟩ := List.exists_cons_of_ne_nil hne
  refine List.mem_append_right _ (List.mem_append_left _ ?_)
  rw [tuck, List.flatten_cons]
  exact List.mem_append_left _ (List.mem_append_right _ (List.mem_flatMap.mpr ⟨a, ha, hx⟩))

/-- What is around a node is there of the node or of a comment around it. -/
theorem of_mem_frame {c : NodeComments} {inner : List α} {x : α} (hx : x ∈ c.frame f inner) :
    x ∈ inner ∨ ∃ a ∈ c.leading ++ c.trailing, x ∈ f a.comment := by
  rcases List.mem_append.mp hx with hx | hx
  · obtain ⟨a, ha, hx⟩ := List.mem_flatMap.mp hx
    exact .inr ⟨a, List.mem_append_left _ ha, hx⟩
  · rcases List.mem_append.mp hx with hx | hx
    · exact .inl hx
    · obtain ⟨a, ha, hx⟩ := List.mem_flatMap.mp hx
      exact .inr ⟨a, List.mem_append_right _ ha, hx⟩

/-- What is inside a node is there of a child or of a comment inside it. -/
theorem of_mem_tuck {c : NodeComments} {inners : List (List α)} {x : α}
    (hx : x ∈ (c.tuck f inners).flatten) :
    (∃ inner ∈ inners, x ∈ inner) ∨ ∃ a ∈ c.dangling, x ∈ f a.comment := by
  cases inners with
  | nil => cases hx
  | cons first rest =>
    rw [tuck, List.flatten_cons, List.append_assoc] at hx
    rcases List.mem_append.mp hx with hx | hx
    · exact .inl ⟨first, List.mem_cons_self, hx⟩
    · rcases List.mem_append.mp hx with hx | hx
      · exact .inr (List.mem_flatMap.mp hx)
      · obtain ⟨inner, hinner, hx⟩ := List.mem_flatten.mp hx
        exact .inl ⟨inner, List.mem_cons_of_mem _ hinner, hx⟩

/-- What is made of all that is around a node is made of each part of it. -/
theorem flatMap_frame (g : α → List β) (c : NodeComments) (inner : List α) :
    (c.frame f inner).flatMap g = c.frame (fun c => (f c).flatMap g) (inner.flatMap g) := by
  simp only [frame, List.flatMap_append, List.flatMap_assoc]

/-- What is made of all that is inside a node is made of each part of it. -/
theorem flatMap_flatten_tuck (g : α → List β) (c : NodeComments) (inners : List (List α)) :
    (c.tuck f inners).flatten.flatMap g =
      (c.tuck (fun c => (f c).flatMap g) (inners.map (·.flatMap g))).flatten := by
  have hflat : ∀ ls : List (List α), ls.flatten.flatMap g = (ls.map (·.flatMap g)).flatten := by
    intro ls
    rw [← List.flatMap_id, List.flatMap_assoc, List.flatMap_def]
    rfl
  cases inners with
  | nil => rfl
  | cons => simp only [tuck, List.map_cons, List.flatten_cons, List.flatMap_append,
      List.flatMap_assoc, hflat]

end NodeComments

/-- Trees that are the same one by one have children of which the same is made. -/
theorem map_eq_of_map_outline {α : Type} {f g : Tree → α} {ts us : List Tree}
    (h : ts.map Tree.outline = us.map Tree.outline)
    (hfg : ∀ t ∈ ts, ∀ u, t.outline = u.outline → f t = g u) : ts.map f = us.map g := by
  induction ts generalizing us with
  | nil => rw [List.map_eq_nil_iff.mp h.symm]; rfl
  | cons t ts ih =>
    obtain ⟨u, us, rfl, hu, hus⟩ := List.map_eq_cons_iff.mp h.symm
    obtain ⟨ht, hfg⟩ := List.forall_mem_cons.mp hfg
    rw [List.map_cons, List.map_cons, ht u hu.symm, ih hus.symm hfg]

/-- The same texts are shown of a tree at other positions with the same comments. -/
theorem Attachments.Alike.rows_items {as as' : Attachments} {t t' : Tree}
    (has : as.Alike as' t.nodes) (ht : t.outline = t'.outline) :
    (as.items t).flatMap Item.rows = (as'.items t').flatMap Item.rows := by
  have hrows : ∀ c : Comment, [Item.comment c.outline].flatMap Item.rows =
      [Item.comment c].flatMap Item.rows := fun c => by simp [Item.rows, c.rows_outline]
  induction t using Tree.induction_children generalizing t' with
  | step t ih =>
    cases t with
    | leaf info text =>
      cases t' with
      | branch => cases ht
      | leaf info' text' =>
        have hindex : info.index = info'.index := Tree.index_eq_of_outline ht
        have hsame : (as.at info.index).outline info.kind =
            (as'.at info.index).outline info.kind := has _ (Tree.mem_nodes_self _)
        rw [items, items, NodeComments.flatMap_frame, NodeComments.flatMap_frame,
          ← NodeComments.frame_outline hrows info.kind, hsame, NodeComments.frame_outline hrows,
          hindex, (Tree.leaf.inj ht).2]
        rfl
    | branch info ts =>
      cases t' with
      | leaf => cases ht
      | branch info' ts' =>
        have hindex : info.index = info'.index := Tree.index_eq_of_outline ht
        have hts : ts.map Tree.outline = ts'.map Tree.outline := by
          rw [← Tree.outlineOfAll_eq_map, ← Tree.outlineOfAll_eq_map]
          exact (Tree.branch.inj ht).2
        have hinner : (as.itemsOfAll ts).map (·.flatMap Item.rows) =
            (as'.itemsOfAll ts').map (·.flatMap Item.rows) := by
          rw [itemsOfAll_eq_map, itemsOfAll_eq_map, List.map_map, List.map_map]
          exact map_eq_of_map_outline hts fun u hu u' h =>
            ih u hu (fun v hv => has v (Tree.mem_nodes_of_child hu hv)) h
        have hsame : (as.at info.index).outline info.kind =
            (as'.at info.index).outline info.kind := has _ (Tree.mem_nodes_self _)
        rw [items, items, NodeComments.flatMap_frame, NodeComments.flatMap_frame,
          NodeComments.flatMap_flatten_tuck, NodeComments.flatMap_flatten_tuck, hinner,
          ← NodeComments.frame_outline hrows info.kind, ← NodeComments.tuck_outline hrows info.kind,
          hsame, NodeComments.tuck_outline hrows, NodeComments.frame_outline hrows, hindex]

/-! ## From the first comment to the last one -/

namespace Tree

variable {t : Tree}

/-- A node starts where its first child starts if each of them begins with its first leaf. -/
theorem startsWithFirst_of_ends (h : ∀ u ∈ t.nodes, ∃ first last, u.Ends first last) :
    ∀ u ∈ t.children.head?, u.span.start = t.span.start := by
  intro u hu
  have hmem : u ∈ t.children := List.mem_of_mem_head? hu
  obtain ⟨first, last, hends⟩ := h t t.mem_nodes_self
  obtain ⟨first', last', hends'⟩ := h u (mem_nodes_of_mem_children hmem)
  obtain ⟨rest, hrest⟩ := List.head?_eq_some_iff.mp hu
  have hopens := hends.opens
  rw [leaves_eq_of_children (List.ne_nil_of_mem hmem), hrest, List.flatMap_cons,
    List.head?_append, hends'.opens] at hopens
  rw [hends.start, hends'.start, ← Option.some.inj hopens]

/-- A node stops where its last child stops if each of them ends with its last leaf. -/
theorem stopsWithLast_of_ends (h : ∀ u ∈ t.nodes, ∃ first last, u.Ends first last) :
    t.StopsWithLast := by
  intro u hu
  have hmem : u ∈ t.children := List.mem_of_getLast? hu
  obtain ⟨first, last, hends⟩ := h t t.mem_nodes_self
  obtain ⟨first', last', hends'⟩ := h u (mem_nodes_of_mem_children hmem)
  obtain ⟨rest, hrest⟩ := List.getLast?_eq_some_iff.mp hu
  have hcloses := hends.closes
  rw [leaves_eq_of_children (List.ne_nil_of_mem hmem), hrest, List.flatMap_append,
    List.flatMap_singleton, List.getLast?_append, hends'.closes] at hcloses
  rw [hends.stop, hends'.stop, ← Option.some.inj hcloses]

end Tree

namespace Attachments

variable {source : Source} {as : Attachments} {info : NodeInfo} {ts : List Tree}

/-- What is shown of the children of a node stretches from its start to its end. -/
theorem filled_children (h : as.Framed (.branch info ts))
    (hends : ∀ u ∈ (Tree.branch info ts).nodes, ∃ first last, u.Ends first last)
    (hts : ∀ u ∈ ts, (as.extent u).Filled ((as.items u).flatMap (Item.marks source))) :
    info.span.Filled (((as.at info.index).tuck (fun c => [.comment c])
      (as.itemsOfAll ts)).flatten.flatMap (Item.marks source)) := by
  have hstart := Tree.startsWithFirst_of_ends hends
  have hstop := Tree.stopsWithLast_of_ends hends
  cases ts with
  | nil => cases h.bare rfl
  | cons u us =>
    obtain ⟨hu, hus⟩ := List.forall_mem_cons.mp hts
    rw [itemsOfAll, NodeComments.tuck, List.flatten_cons, List.flatMap_append, List.flatMap_append]
    constructor
    · have hfirst : (as.extent u).start = info.span.start :=
        (NodeComments.start_extent (h.first h.unit u rfl)).trans (hstart u rfl)
      rw [← hfirst]
      exact start_append (start_append hu.start)
    · have hlast : ∀ v ∈ (u :: us).getLast?, (as.extent v).stop = info.span.stop := fun v hv =>
        (NodeComments.stop_extent (h.last h.unit v hv)).trans (hstop v hv)
      rcases List.eq_nil_or_concat' us with rfl | ⟨vs, v, rfl⟩
      · have hbody : info.kind.isBody = false := by
          cases hk : info.kind.isBody with
          | false => rfl
          | true => exact absurd rfl (h.body hk)
        have hinside : (as.at info.index).dangling = [] := h.dangling hbody
        rw [← hlast u rfl, hinside]
        simpa [itemsOfAll] using hu.stop
      · have hmem : v ∈ (u :: (vs ++ [v])).getLast? := by
          rw [← List.cons_append]
          exact List.getLast?_concat
        rw [← hlast v hmem, itemsOfAll_eq_map, List.map_append, List.flatten_append,
          List.flatMap_append]
        refine stop_append (stop_append ?_)
        simpa using (hus v (by simp)).stop

/-- What is shown of a tree stretches from the first comment in front of it to the last one behind
it. -/
theorem filled_items {t : Tree} (h : ∀ u ∈ t.nodes, as.Framed u)
    (hends : ∀ u ∈ t.nodes, ∃ first last, u.Ends first last)
    (hstands : ∀ i ∈ as.items t, i.Stands source) :
    (as.extent t).Filled ((as.items t).flatMap (Item.marks source)) := by
  induction t using Tree.induction_children with
  | step t ih =>
    cases t with
    | leaf info text =>
      rw [items] at hstands ⊢
      refine .frame (fun a ha =>
          hstands _ (NodeComments.mem_frame_leading ha (List.mem_singleton_self _)))
        (fun a ha => hstands _ (NodeComments.mem_frame_trailing ha (List.mem_singleton_self _))) ?_
      exact Mark.filled ⟨text, info.span⟩
    | branch info ts =>
      rw [items] at hstands ⊢
      refine .frame (fun a ha =>
          hstands _ (NodeComments.mem_frame_leading ha (List.mem_singleton_self _)))
        (fun a ha => hstands _ (NodeComments.mem_frame_trailing ha (List.mem_singleton_self _))) ?_
      refine filled_children (h _ (Tree.mem_nodes_self _)) hends fun u hu => ?_
      refine ih u hu (fun v hv => h v (Tree.mem_nodes_of_child hu hv))
        (fun v hv => hends v (Tree.mem_nodes_of_child hu hv)) fun i hi => hstands i ?_
      rw [itemsOfAll_eq_map]
      exact NodeComments.mem_frame_tuck (List.mem_map_of_mem hu) hi

end Attachments

/-! ## From texts to children -/

/-- Marks, and the span from the start of the first one to the end of the last one. -/
structure Stretch where
  marks : List Mark
  span : Span

/-- Spots for the marks of a stretch. -/
structure Stretch.Fits (ws : List Spot) (x : Stretch) : Prop where
  length : ws.length = x.marks.length
  filled : x.span.Filled x.marks

namespace Source

variable {source : Source} {k : Option Nat} {ks ls : List (Option Nat)} {s t u : Span}
  {ts us : List Span} {x : Stretch} {xs : List Stretch} {ms : List Mark} {ws vs : List Spot}
  {wss : List (List Spot)}

/-- How far something is away is seen from where the one stops and the other starts. -/
theorem Divides.of_edges (h : source.Divides k s t) {s' t' : Span} (hstop : s.stop = s'.stop)
    (hstart : t.start = t'.start) : source.Divides k s' t' := by
  intro n hn
  rw [← hstop, ← hstart]
  exact h n hn

/-- What follows something is as far away from all that stops there. -/
theorem DividesAll.of_stop (h : source.DividesAll s ks ts) (hstop : s.stop = t.stop) :
    source.DividesAll t ks ts := by
  cases ks with
  | nil => trivial
  | cons k ks =>
    cases ts with
    | nil => trivial
    | cons u ts => exact ⟨h.1.of_edges hstop rfl, h.2⟩

/-- Spans in a row, and others behind the last of them. -/
theorem DividesAll.append (hlength : ks.length = ts.length)
    (h : source.DividesAll t (ks ++ ls) (ts ++ us)) :
    source.DividesAll t ks ts ∧ source.DividesAll (ts.getLast?.getD t) ls us := by
  induction ts generalizing t ks with
  | nil =>
    obtain rfl := List.length_eq_zero_iff.mp hlength
    exact ⟨trivial, h⟩
  | cons u ts ih =>
    obtain ⟨k, ks, rfl⟩ := List.exists_cons_of_length_eq_add_one hlength
    obtain ⟨hks, hls⟩ := ih (Nat.succ.inj hlength) h.2
    rw [List.getLast?_cons]
    exact ⟨⟨h.1, hks⟩, hls⟩

/-- Where numbers of breaks are heeded, they are behind the first spans. -/
theorem Heeds.behind (h : source.Heeds (ks ++ ls) (ts ++ us)) (hlength : ks.length = ts.length) :
    source.Heeds ls us := by
  cases ts with
  | nil =>
    obtain rfl := List.length_eq_zero_iff.mp hlength
    exact h
  | cons t ts =>
    obtain ⟨k, ks, rfl⟩ := List.exists_cons_of_length_eq_add_one hlength
    exact (DividesAll.append (Nat.succ.inj hlength) h).2.heeds

/-- It does not matter where the first span stops if no breaks are fixed in front of the second one.
-/
theorem Heeds.of_tail (h : source.Heeds ks (t :: ts)) (hks : ∀ k ∈ ks.tail.head?, k = none) :
    source.Heeds ks (u :: ts) := by
  match ks, ts, h, hks with
  | [], _, _, _ | [_], _, _, _ | _ :: _ :: _, [], _, _ => trivial
  | _ :: k :: ks, v :: ts, h, hks =>
    obtain rfl := hks k rfl
    exact ⟨fun n hn => (by cases hn), h.2⟩

/-- The marks of a stretch are as far apart as they are among others, and so are those behind it. -/
theorem Heeds.of_marks (hfits : x.Fits ws)
    (h : source.Heeds ((Spot.behind k ws ++ vs).map Spot.breaks)
      ((x.marks ++ ms).map Mark.span)) :
    source.Heeds (ws.map Spot.breaks) (x.marks.map Mark.span) ∧
      source.DividesAll x.span (vs.map Spot.breaks) (ms.map Mark.span) := by
  obtain ⟨hlength, hstart, hstop⟩ := hfits
  generalize x.marks = marks at hlength hstart hstop h ⊢
  cases marks with
  | nil => cases hstart
  | cons m rest =>
    obtain ⟨w, ws, rfl⟩ := List.exists_cons_of_length_eq_add_one hlength
    rw [List.map_append, Spot.map_breaks_behind_cons, List.map_append] at h
    obtain ⟨hself, hbehind⟩ := DividesAll.append (by simpa using hlength) h
    refine ⟨hself, hbehind.of_stop ?_⟩
    rw [List.getLast?_cons, Option.map_some] at hstop
    rw [List.getLast?_map, Option.getD_map]
    exact Option.some.inj hstop

/-- The first mark of a stretch is as far away as the stretch is. -/
theorem DividesAll.of_marks (hfits : x.Fits ws)
    (h : source.DividesAll t ((Spot.behind k ws ++ vs).map Spot.breaks)
      ((x.marks ++ ms).map Mark.span)) :
    source.Divides k t x.span ∧ source.Heeds ((Spot.behind k ws ++ vs).map Spot.breaks)
      ((x.marks ++ ms).map Mark.span) := by
  obtain ⟨hlength, hstart, -⟩ := hfits
  generalize x.marks = marks at hlength hstart h ⊢
  cases marks with
  | nil => cases hstart
  | cons m rest =>
    obtain ⟨w, ws, rfl⟩ := List.exists_cons_of_length_eq_add_one hlength
    rw [List.map_append, Spot.map_breaks_behind_cons] at h ⊢
    refine ⟨fun n hn => ?_, h.2⟩
    obtain rfl : k = some n := hn
    exact h.1.of_edges rfl (Option.some.inj hstart) n rfl

/-- Behind something, stretches in a row are as far apart as their marks are, and so are the marks
of each of them. -/
theorem DividesAll.of_splice (hfits : List.Forall₂ (fun ws x => x.Fits ws) wss xs)
    (h : source.DividesAll t ((splice ks wss).map Spot.breaks)
      ((xs.flatMap Stretch.marks).map Mark.span)) :
    source.DividesAll t ks (xs.map Stretch.span) ∧ List.Forall₂
      (fun ws x => source.Heeds (ws.map Spot.breaks) (x.marks.map Mark.span)) wss xs := by
  induction hfits generalizing t ks with
  | nil => exact ⟨by cases ks <;> trivial, .nil⟩
  | @cons ws x wss xs hfit _ ih =>
    rw [List.flatMap_cons] at h
    cases ks with
    | nil =>
      have hbehind := (DividesAll.of_marks (k := none) hfit h).2
      obtain ⟨hself, hrest⟩ := hbehind.of_marks hfit
      exact ⟨trivial, .cons hself (ih hrest).2⟩
    | cons k ks =>
      obtain ⟨hdivides, hbehind⟩ := DividesAll.of_marks hfit h
      obtain ⟨hself, hrest⟩ := hbehind.of_marks hfit
      obtain ⟨hspans, hmarks⟩ := ih hrest
      exact ⟨⟨hdivides, hspans⟩, .cons hself hmarks⟩

/-- Stretches in a row are as far apart as their marks are. -/
theorem Heeds.of_splice (hfits : List.Forall₂ (fun ws x => x.Fits ws) wss xs)
    (h : source.Heeds ((splice ks wss).map Spot.breaks)
      ((xs.flatMap Stretch.marks).map Mark.span)) :
    source.Heeds ks (xs.map Stretch.span) ∧ List.Forall₂
      (fun ws x => source.Heeds (ws.map Spot.breaks) (x.marks.map Mark.span)) wss xs := by
  cases hfits with
  | nil => exact ⟨by cases ks <;> trivial, .nil⟩
  | @cons ws x wss xs hfit hfits =>
    rw [List.flatMap_cons] at h
    cases ks with
    | nil =>
      obtain ⟨hself, hrest⟩ := Heeds.of_marks (k := none) hfit h
      exact ⟨trivial, .cons hself (hrest.of_splice hfits).2⟩
    | cons k ks =>
      obtain ⟨hself, hrest⟩ := Heeds.of_marks hfit h
      obtain ⟨hspans, hmarks⟩ := hrest.of_splice hfits
      exact ⟨hspans, .cons hself hmarks⟩

end Source

/-! ## From a node to its children -/

/-- A well-shaped tree, and the same tree at other positions with the same comments, where every
node begins with its first leaf and ends with its last one and what is shown stands in a source. -/
structure Tree.Matches (as as' : Attachments) (source : Source) (t t' : Tree) : Prop where
  outline : t.outline = t'.outline
  alike : as.Alike as' t.nodes
  shaped : t.WellShaped
  framed : ∀ u ∈ t'.nodes, as'.Framed u
  ends : ∀ u ∈ t'.nodes, ∃ first last, u.Ends first last
  stands : ∀ i ∈ as'.items t', i.Stands source

/-- The same of trees one by one. -/
theorem forall₂_matches {as as' : Attachments} {source : Source} {ts ts' : List Tree}
    (hts : ts.map Tree.outline = ts'.map Tree.outline) (has : ∀ t ∈ ts, as.Alike as' t.nodes)
    (hw : ∀ t ∈ ts, t.WellShaped) (hframed : ∀ t ∈ ts', ∀ u ∈ t.nodes, as'.Framed u)
    (hends : ∀ t ∈ ts', ∀ u ∈ t.nodes, ∃ first last, u.Ends first last)
    (hstands : ∀ t ∈ ts', ∀ i ∈ as'.items t, i.Stands source) :
    List.Forall₂ (Tree.Matches as as' source) ts ts' := by
  induction ts generalizing ts' with
  | nil =>
    rw [List.map_eq_nil_iff.mp hts.symm]
    exact .nil
  | cons t ts ih =>
    obtain ⟨t', ts', rfl, ht, hts⟩ := List.map_eq_cons_iff.mp hts.symm
    obtain ⟨halike, has⟩ := List.forall_mem_cons.mp has
    obtain ⟨hself, hw⟩ := List.forall_mem_cons.mp hw
    obtain ⟨hself', hframed⟩ := List.forall_mem_cons.mp hframed
    obtain ⟨hends', hends⟩ := List.forall_mem_cons.mp hends
    obtain ⟨hstands', hstands⟩ := List.forall_mem_cons.mp hstands
    exact .cons ⟨ht.symm, halike, hself, hself', hends', hstands'⟩
      (ih hts.symm has hw hframed hends hstands)

/-- The children of a tree match those of the same tree at other positions. -/
theorem Tree.Matches.children {as as' : Attachments} {source : Source} {info info' : NodeInfo}
    {ts ts' : List Tree} (h : (branch info ts).Matches as as' source (branch info' ts')) :
    List.Forall₂ (Tree.Matches as as' source) ts ts' := by
  have hts : ts.map Tree.outline = ts'.map Tree.outline := by
    rw [← outlineOfAll_eq_map, ← outlineOfAll_eq_map]
    exact (Tree.branch.inj h.outline).2
  refine forall₂_matches hts (fun u hu v hv => h.alike v (Tree.mem_nodes_of_child hu hv))
    (Tree.wellShaped_branch_iff.mp h.shaped).2
    (fun u hu v hv => h.framed v (Tree.mem_nodes_of_child hu hv))
    (fun u hu v hv => h.ends v (Tree.mem_nodes_of_child hu hv)) fun u hu i hi => h.stands i ?_
  rw [Attachments.items, Attachments.itemsOfAll_eq_map]
  exact NodeComments.mem_frame_tuck (List.mem_map_of_mem hu) hi

/-- What is shown of a tree, from its first comment to its last one. -/
def Attachments.stretch (as : Attachments) (source : Source) (t : Tree) : Stretch :=
  ⟨(as.items t).flatMap (Item.marks source), as.extent t⟩

section Spots

variable {source : Source} {scene : Scene} {as' : Attachments}

/-- The marks of what stands in a source have the texts that are shown. -/
theorem map_text_flatMap_marks {is : List Item} (h : ∀ i ∈ is, i.Stands source) :
    (is.flatMap (Item.marks source)).map Mark.text = is.flatMap Item.rows := by
  rw [List.map_flatMap]
  exact List.flatMap_congr fun i hi => i.map_text_marks (h i hi).solid.begins

/-- There is a spot for each mark of comments that are the same but for positions. -/
theorem length_flatMap_spots {as as' : List AttachedComment}
    (h : as.map (·.comment.outline) = as'.map (·.comment.outline))
    (hstands : ∀ a ∈ as', (Item.comment a.comment).Stands source) :
    (as.flatMap (·.comment.spots)).length =
      ((as'.flatMap fun a => [Item.comment a.comment]).flatMap (Item.marks source)).length := by
  have hstands' : ∀ i ∈ as'.flatMap fun a => [Item.comment a.comment], i.Stands source := by
    intro i hi
    obtain ⟨a, ha, hi⟩ := List.mem_flatMap.mp hi
    rw [List.mem_singleton.mp hi]
    exact hstands a ha
  have hrows : ∀ as : List AttachedComment,
      (as.flatMap fun a => [Item.comment a.comment]).flatMap Item.rows =
        (as.map (·.comment.outline)).flatMap Comment.rows := by
    intro as
    rw [List.flatMap_assoc, List.flatMap_map]
    exact List.flatMap_congr fun a _ => by simp [Item.rows, Comment.rows_outline]
  rw [← List.length_map Spot.text, NodeComments.map_text_spots, hrows, h, ← hrows,
    ← map_text_flatMap_marks hstands', List.length_map]

/-- The spots of a tree fit what is shown of the same tree at other positions. -/
theorem fits_spots {t t' : Tree} (h : t.Matches scene.attachments as' source t')
    (parent : Option NodeKind) : (as'.stretch source t').Fits (scene.spots parent t) where
  length := by
    rw [← List.length_map Spot.text, scene.map_text_spots, h.alike.rows_items h.outline,
      ← map_text_flatMap_marks h.stands, List.length_map]
    rfl
  filled := Attachments.filled_items h.framed h.ends h.stands

/-- What is shown of a tree and of comments behind it. -/
def Attachments.stretchBefore (as : Attachments) (source : Source) (t : Tree)
    (inside : List AttachedComment) : Stretch where
  marks := (as.items t ++ inside.flatMap fun a => [Item.comment a.comment]).flatMap
    (Item.marks source)
  span := NodeComments.extent { trailing := inside } (as.extent t)

/-- The spots of a tree and of comments behind it fit what is shown of the same at other positions.
-/
theorem fits_before {t t' : Tree} (h : t.Matches scene.attachments as' source t')
    (parent : Option NodeKind) {inside inside' : List AttachedComment}
    (hinside : inside.map (·.comment.outline) = inside'.map (·.comment.outline))
    (hstands : ∀ a ∈ inside', (Item.comment a.comment).Stands source) :
    (as'.stretchBefore source t' inside').Fits
      (scene.spots parent t ++ inside.flatMap (·.comment.spots)) where
  length := by
    have hspots := (fits_spots h parent).length
    rw [Attachments.stretchBefore, List.flatMap_append, List.length_append, List.length_append,
      hspots, length_flatMap_spots hinside hstands]
    rfl
  filled := (fits_spots h parent).filled.frame (c := { trailing := inside' })
    (fun a ha => by cases ha) hstands

section Node

variable {k : NodeKind} {c c' : NodeComments} (hc : c.outline k = c'.outline k)

include hc

/-- What is shown inside a node is as far apart as what is shown of it with the comments around
it. -/
theorem heeds_of_frame {ws : List Spot} {is : List Item}
    (hstands : ∀ a ∈ c'.leading, (Item.comment a.comment).Stands source)
    (h : source.Heeds ((c.frame Comment.spots ws).map Spot.breaks)
      (((c'.frame (fun c => [.comment c]) is).flatMap (Item.marks source)).map Mark.span)) :
    source.Heeds (ws.map Spot.breaks) ((is.flatMap (Item.marks source)).map Mark.span) := by
  have hcomments : c.leading.map (·.comment.outline) = c'.leading.map (·.comment.outline) := by
    have hleading := congrArg (fun c => c.leading.map (·.comment)) hc
    simp only [NodeComments.leading_outline, List.map_map] at hleading
    exact hleading
  rw [NodeComments.frame, NodeComments.frame, List.flatMap_append, List.flatMap_append,
    List.map_append, List.map_append, List.map_append, List.map_append] at h
  have hinner := h.behind (by
    rw [List.length_map, List.length_map, length_flatMap_spots hcomments hstands])
  exact hinner.of_append.of_append_left

/-- The children of a node are as far apart as what is shown inside it, and so is what is shown of
each of them. No breaks are fixed in front of the second child if there are comments behind the
first one. -/
theorem heeds_children {parent : Option NodeKind} {ks : List (Option Nat)} {ts ts' : List Tree}
    (hstands : ∀ a ∈ c'.dangling, (Item.comment a.comment).Stands source)
    (hks : c'.dangling ≠ [] → ∀ k ∈ ks.tail.head?, k = none)
    (hts : List.Forall₂ (Tree.Matches scene.attachments as' source) ts ts')
    (h : source.Heeds
      ((splice ks (c.tuck Comment.spots (scene.spotsOfAll parent ts))).map Spot.breaks)
      (((c'.tuck (fun c => [.comment c]) (as'.itemsOfAll ts')).flatten.flatMap
        (Item.marks source)).map Mark.span)) :
    source.Heeds ks (ts'.map as'.extent) ∧ List.Forall₂ (fun t t' =>
      source.Heeds ((scene.spots parent t).map Spot.breaks)
        ((as'.stretch source t').marks.map Mark.span)) ts ts' := by
  cases hts with
  | nil => exact ⟨by cases ks <;> trivial, .nil⟩
  | @cons u u' us us' hu hus =>
    have hinside : c.dangling.map (·.comment.outline) = c'.dangling.map (·.comment.outline) := by
      have hdangling := congrArg (fun c => c.dangling.map (·.comment)) hc
      simpa only [NodeComments.map_comment_dangling_outline] using hdangling
    have hrest : List.Forall₂ (fun ws x => Stretch.Fits ws x) (us.map (scene.spots parent))
        (us'.map (as'.stretch source)) := by
      rw [List.forall₂_map_left_iff, List.forall₂_map_right_iff]
      exact hus.imp fun _ _ hv => fits_spots hv parent
    have hmarks : (c'.tuck (fun c => [.comment c]) (as'.itemsOfAll (u' :: us'))).flatten.flatMap
        (Item.marks source) = (as'.stretchBefore source u' c'.dangling ::
          us'.map (as'.stretch source)).flatMap Stretch.marks := by
      rw [as'.itemsOfAll_eq_map, List.map_cons, NodeComments.tuck, List.flatten_cons,
        List.flatMap_append, List.flatMap_cons, List.flatMap_map, ← List.flatMap_def,
        List.flatMap_assoc]
      rfl
    rw [scene.spotsOfAll_eq_map, List.map_cons, NodeComments.tuck, hmarks] at h
    obtain ⟨hspans, hchildren⟩ := h.of_splice (.cons (fits_before hu parent hinside hstands)
      hrest)
    obtain ⟨hself, hothers⟩ := List.forall₂_cons.mp hchildren
    rw [Attachments.stretchBefore, List.map_append, List.flatMap_append, List.map_append] at hself
    rw [List.forall₂_map_left_iff, List.forall₂_map_right_iff] at hothers
    refine ⟨?_, .cons hself.of_append.of_append_left hothers⟩
    rw [List.map_cons, List.map_map] at hspans
    by_cases hnone : c'.dangling = []
    · rw [hnone] at hspans
      exact hspans
    · exact hspans.of_tail (hks hnone)

end Node

end Spots

end JavaFormat
