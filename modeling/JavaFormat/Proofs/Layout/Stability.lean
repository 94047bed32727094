import JavaFormat.Proofs.Layout.BlankLines
import JavaFormat.Proofs.Layout.Fitting

/-!
# Formatting is stable where comments stay put

The output of a source, read again, is laid out as the source was, so it is printed again as it
is, if the comments are put to the nodes that they were put to (`layOut_eq_of_rereads`). The few
places where the layout looks at lines are those in front of which it fixes the number of line
breaks, and in its own output it finds these numbers: that is handed down from the leaves and
comments of a tree to the children of each node.
-/

namespace JavaFormat

open Layout

/-! ## Trees -/

namespace Layout

/-- In front of the first member of a body no breaks are fixed. -/
theorem Site.eq_none_of_isBody {s : Site} (h : s.node.kind.isBody = true) :
    ∀ k ∈ s.breaks.tail.head?, k = none := by
  have hmembers : ∀ gap ps, ∀ k ∈ (membersBreaks s.source gap ps).head?, k = none := by
    intro gap ps k hk
    cases ps with
    | nil => cases hk
    | cons p ps => exact (Option.some.inj hk).symm
  have hconstants : ∀ ps, ∀ k ∈ (constantBreaks s.source false ps).head?, k = none := by
    intro ps k hk
    cases ps with
    | nil => cases hk
    | cons p ps =>
      rw [constantBreaks] at hk
      split at hk <;> exact (Option.some.inj hk).symm
  unfold Site.breaks
  cases hkind : s.node.kind <;> rw [hkind] at h
  case classBody | interfaceBody | annotationTypeBody => exact hmembers Gap.ofMembers s.unbraced
  case block | constructorBody | switchBlock | moduleBody => exact hmembers Gap.none s.unbraced
  case enumBody => exact hconstants s.unbraced
  all_goals cases h

/-- The pieces of trees stretch from their first comments to their last ones. -/
theorem map_extent_layOutAll (scene : Scene) (parent : Option NodeKind) (ts : List Tree) :
    (layOutAll scene parent ts).map Piece.extent = ts.map scene.attachments.extent := by
  rw [← map_node_layOutAll scene parent ts, List.map_map, map_node_layOutAll]
  refine List.map_congr_left fun p hp => ?_
  rw [Piece.extent, comments_of_mem_layOutAll p hp]
  rfl

/-- Trees that are laid out the same one by one. -/
theorem map_outline_layOutAll_eq {scene scene' : Scene} {parent : Option NodeKind}
    {ts ts' : List Tree} (h : List.Forall₂ (fun t t' => (layOut scene parent t).outline =
      (layOut scene' parent t').outline) ts ts') :
    (layOutAll scene parent ts).map Piece.outline =
      (layOutAll scene' parent ts').map Piece.outline := by
  induction h with
  | nil => rfl
  | cons ht _ ih => rw [layOutAll, layOutAll, List.map_cons, List.map_cons, ht, ih]

section Trees

variable {scene scene' : Scene} (hroots : scene.roots = scene'.roots) (parent : Option NodeKind)
  {t t' : Tree}

include hroots

/-- Two nodes that are the same but for positions, the children of the second one being as far apart
as the layout of the first one fixes. -/
theorem steady_site (ht : t.outline = t'.outline)
    (has : scene.attachments.Alike scene'.attachments t.nodes)
    (horderly : ∀ u ∈ t'.nodes, scene'.attachments.Orderly u)
    (hends : ∀ u ∈ t'.nodes, ∃ first last, u.Ends first last) {ps ps' : List Piece}
    (hnodes : ps.map Piece.node = t.children) (hnodes' : ps'.map Piece.node = t'.children)
    (hcomments : ∀ p ∈ ps', p.comments = scene'.attachments.at p.node.index)
    (houtlines : ps.map Piece.outline = ps'.map Piece.outline)
    (hheeds : scene'.source.Heeds (scene.site parent t ps).breaks (ps'.map Piece.extent)) :
    (scene.site parent t ps).Steady (scene'.site parent t' ps') := by
  have hself := horderly t' t'.mem_nodes_self
  have hchild : ∀ p ∈ ps', p.node ∈ t'.children := fun p hp => hnodes' ▸ List.mem_map_of_mem hp
  have hbelow : ∀ p ∈ ps', ∀ u ∈ p.node.nodes, u ∈ t'.nodes := fun p hp _ hu =>
    Tree.mem_nodes_trans (Tree.mem_nodes_of_mem_children (hchild p hp)) hu
  have hquiet : t'.kind.holdsMembers = false → ∀ p ∈ ps', p.comments.trailing = [] := by
    intro hk p hp
    rw [hcomments p hp]
    exact hself.trailing hk p.node (hchild p hp)
  exact {
    outline := by
      have hsame := has t t.mem_nodes_self
      have hkind : t.kind = t'.kind := by rw [← Tree.kind_outline, ht, Tree.kind_outline]
      rw [Tree.index_eq_of_outline ht, hkind] at hsame
      simp only [Site.outline, Scene.site, hroots, ht, Tree.index_eq_of_outline ht, hkind,
        houtlines, hsame]
    nodes := hnodes
    dangling := fun hk => hself.dangling (by
      rw [show t'.kind = .modifiers from hk]
      rfl)
    leading := by
      intro hk p hp
      rw [hcomments p hp]
      exact hself.leading (.inl hk) p.node (hchild p hp)
    trailing := fun hk => hquiet (by
      rw [show t'.kind = .modifiers from hk]
      rfl)
    bare := by
      intro hk
      have hchain := hself.neighbours
      rw [← hnodes', List.isChain_map] at hchain
      refine hchain.imp_of_mem_imp fun p q hp hq hparts => ⟨fun hmodifiers => ?_,
        fun _ => hquiet hk p hp, fun hmodifiers => ?_⟩
      · rw [hcomments p hp]
        refine (horderly p.node (hbelow p hp _ p.node.mem_nodes_self)).dangling ?_
        rw [show p.node.kind = .modifiers from hmodifiers]
        rfl
      · rw [hcomments q hq]
        exact hparts.modifiers hmodifiers
    stops := fun p hp => Tree.stopsWithLast_of_ends fun u hu => hends u (hbelow p hp u hu)
    heeds := hheeds }

/-- A branch with children that are laid out the same and are as far apart as is fixed. -/
theorem outline_layOut_branch_eq {info info' : NodeInfo} {ts ts' : List Tree}
    (ht : (Tree.branch info ts).outline = (Tree.branch info' ts').outline)
    (has : scene.attachments.Alike scene'.attachments (Tree.branch info ts).nodes)
    (hr : (Tree.branch info ts).Regular)
    (horderly : ∀ u ∈ (Tree.branch info' ts').nodes, scene'.attachments.Orderly u)
    (hends : ∀ u ∈ (Tree.branch info' ts').nodes, ∃ first last, u.Ends first last)
    (hlaid : (layOutAll scene (some info.kind) ts).map Piece.outline =
      (layOutAll scene' (some info.kind) ts').map Piece.outline)
    (hheeds : scene'.source.Heeds (scene.site parent (.branch info ts)
      (layOutAll scene (some info.kind) ts)).breaks (ts'.map scene'.attachments.extent)) :
    (layOut scene parent (.branch info ts)).outline =
      (layOut scene' parent (.branch info' ts')).outline := by
  have hkind : info.kind = info'.kind := by
    have hkinds := congrArg Tree.kind ht
    rwa [Tree.kind_outline, Tree.kind_outline] at hkinds
  rw [← map_extent_layOutAll scene' (some info.kind)] at hheeds
  have hsite := steady_site hroots parent ht has horderly hends
    (map_node_layOutAll scene (some info.kind) ts)
    (map_node_layOutAll scene' (some info.kind) ts') comments_of_mem_layOutAll hlaid hheeds
  rw [layOut, layOut, ← hkind]
  exact hsite.piece_eq hr

omit hroots in
/-- What is shown of a branch is as far apart as is fixed, so its children are, and so is what is
shown of each of them. -/
theorem heeds_of_branch {info info' : NodeInfo} {ts ts' : List Tree}
    (ht : (Tree.branch info ts).outline = (Tree.branch info' ts').outline)
    (has : scene.attachments.Alike scene'.attachments (Tree.branch info ts).nodes)
    (hself : scene'.attachments.Orderly (.branch info' ts'))
    (hstands : ∀ i ∈ scene'.attachments.items (.branch info' ts'), i.Stands scene'.source)
    (hts : List.Forall₂ (Tree.Matches scene.attachments scene'.attachments scene'.source) ts ts')
    (hheeds : scene'.source.Heeds ((scene.spots parent (.branch info ts)).map Spot.breaks)
      (((scene'.attachments.items (.branch info' ts')).flatMap
        (Item.marks scene'.source)).map Mark.span)) :
    scene'.source.Heeds (scene.site parent (.branch info ts)
        (layOutAll scene (some info.kind) ts)).breaks (ts'.map scene'.attachments.extent) ∧
      List.Forall₂ (fun u u' =>
        scene'.source.Heeds ((scene.spots (some info.kind) u).map Spot.breaks)
          ((scene'.attachments.stretch scene'.source u').marks.map Mark.span)) ts ts' := by
  by_cases hnone : ts' = []
  · subst hnone
    cases hts
    refine ⟨?_, .nil⟩
    cases (scene.site parent (.branch info []) _).breaks <;> trivial
  · have hinners : scene'.attachments.itemsOfAll ts' ≠ [] := by
      simpa [Attachments.itemsOfAll_eq_map] using hnone
    have hcomments : (scene.attachments.at info.index).outline info.kind =
        (scene'.attachments.at info'.index).outline info.kind := by
      rw [← show info.index = info'.index from Tree.index_eq_of_outline ht]
      exact has _ (Tree.mem_nodes_self _)
    rw [Scene.spots, Attachments.items] at hheeds
    rw [Attachments.items] at hstands
    have hinner := heeds_of_frame hcomments (fun a ha => hstands _
      (NodeComments.mem_frame_leading ha (List.mem_singleton_self _))) hheeds
    refine heeds_children hcomments (fun a ha => hstands _
      (NodeComments.mem_frame_dangling hinners ha (List.mem_singleton_self _))) ?_ hts hinner
    intro hdangling
    have hkind : info.kind = info'.kind := by
      have hkinds := congrArg Tree.kind ht
      rwa [Tree.kind_outline, Tree.kind_outline] at hkinds
    refine Site.eq_none_of_isBody (show info.kind.isBody = true from ?_)
    rw [hkind]
    cases hbody : info'.kind.isBody with
    | true => rfl
    | false => exact absurd (hself.dangling hbody) hdangling

/-- A tree of which what is shown is as far apart as the layout of the same tree fixes is laid out
the same. -/
theorem outline_layOut_eq_of_heeds
    (h : t.Matches scene.attachments scene'.attachments scene'.source t')
    (hheeds : scene'.source.Heeds ((scene.spots parent t).map Spot.breaks)
      ((scene'.attachments.stretch scene'.source t').marks.map Mark.span)) :
    (layOut scene parent t).outline = (layOut scene' parent t').outline := by
  induction t using Tree.induction_children generalizing parent t' with
  | step t ih =>
    have hregular := h.shaped t t.mem_nodes_self
    have horderly : ∀ u ∈ t'.nodes, scene'.attachments.Orderly u := fun u hu =>
      (h.framed u hu).toOrderly
    cases t with
    | leaf info written =>
      cases t' with
      | branch => cases h.outline
      | leaf info' written' =>
        have hbare (info : NodeInfo) (written : String) :
            ([] : List Piece).map Piece.node = (Tree.leaf info written).children := rfl
        have hsite := steady_site hroots parent h.outline h.alike horderly h.ends (hbare _ _)
          (hbare _ _) (by simp) rfl (by
            cases (scene.site parent (.leaf info written) []).breaks <;> trivial)
        rw [layOut, layOut]
        exact hsite.piece_eq hregular
    | branch info ts =>
      cases t' with
      | leaf => cases h.outline
      | branch info' ts' =>
        obtain ⟨hks, hmarks⟩ := heeds_of_branch parent h.outline h.alike
          (horderly _ (Tree.mem_nodes_self _)) h.stands h.children hheeds
        have hlaid : List.Forall₂ (fun u u' => (layOut scene (some info.kind) u).outline =
            (layOut scene' (some info.kind) u').outline) ts ts' := by
          have hih : ∀ u ∈ ts, ∀ u',
              u.Matches scene.attachments scene'.attachments scene'.source u' →
              scene'.source.Heeds ((scene.spots (some info.kind) u).map Spot.breaks)
                ((scene'.attachments.stretch scene'.source u').marks.map Mark.span) →
                  (layOut scene (some info.kind) u).outline =
                    (layOut scene' (some info.kind) u').outline :=
            fun u hu u' hmatches hheeds => ih u hu (some info.kind) hmatches hheeds
          have hboth := (List.forall₂_and_left _ _).mpr ⟨hih, h.children⟩
          exact hboth.mp (fun u u' hu hheeds => hu.1 u' hu.2 hheeds) hmarks
        exact outline_layOut_branch_eq hroots parent h.outline h.alike hregular horderly h.ends
          (map_outline_layOutAll_eq hlaid) hks

/-- The same goes for trees in a row. -/
theorem map_outline_layOutAll_eq_of_heeds {ts ts' : List Tree}
    (hts : List.Forall₂ (Tree.Matches scene.attachments scene'.attachments scene'.source) ts ts')
    (hheeds : List.Forall₂ (fun t t' =>
      scene'.source.Heeds ((scene.spots parent t).map Spot.breaks)
        ((scene'.attachments.stretch scene'.source t').marks.map Mark.span)) ts ts') :
    (layOutAll scene parent ts).map Piece.outline =
      (layOutAll scene' parent ts').map Piece.outline :=
  map_outline_layOutAll_eq (hts.mp (fun _ _ ht hheeds =>
    outline_layOut_eq_of_heeds hroots parent ht hheeds) hheeds)

end Trees

end Layout

/-! ## Sources -/

/-- A body has two braces. -/
theorem two_le_of_isBody {k : NodeKind} {ts : List Tree} (h : Shape.Allowed k ts)
    (hk : k.isBody = true) : 2 ≤ ts.length := by
  have hbraced : Shape.Braced ts → 2 ≤ ts.length := by
    rintro ⟨first, items, last, rfl, -⟩
    simp
  have henum : Shape.EnumBraced ts → 2 ≤ ts.length := by
    rintro ⟨first, constants, declarations, last, rfl, -⟩
    simp only [List.length_cons, List.length_append]
    omega
  cases k
  case classBody | interfaceBody | annotationTypeBody | block | constructorBody | switchBlock |
      moduleBody => exact hbraced h
  case enumBody => exact henum h
  all_goals cases hk

namespace Attachments

variable {as : Attachments} {t : Tree}

/-- A well-shaped node that covers a leaf is framed if its comments are shown in order. -/
theorem Orderly.framed (h : as.Orderly t) (hleafy : t.Leafy) (hr : t.Regular) : as.Framed t where
  toOrderly := h
  unit := hleafy.kind
  body hk := by
    have hbody : ∀ {k : NodeKind}, k.isBody = true → k ≠ .token ∧ k.isVerbatim = false := by
      intro k hk
      cases k <;> first | exact ⟨by decide, rfl⟩ | cases hk
    have htwo := two_le_of_isBody (hr.allowed (hbody hk).1 (hbody hk).2) hk
    omega
  bare hnone := by
    cases t with
    | leaf info text => rfl
    | branch info ts =>
      obtain rfl : ts = [] := hnone
      exact absurd rfl hleafy.leafTexts

/-- The comments of a node are among those that are attached. -/
theorem mem_of_mem_at {n : Nat} {a : AttachedComment}
    (h : a ∈ (as.at n).leading ++ (as.at n).trailing ∨ a ∈ (as.at n).dangling) : a ∈ as := by
  rcases h with h | h
  · rcases List.mem_append.mp h with h | h
    · exact (as.inRole_at_sublist n .leading).mem h
    · exact (as.inRole_at_sublist n .trailing).mem h
  · exact (as.inRole_at_sublist n .dangling).mem h

/-- What is shown of a tree are its leaves and comments at its nodes. -/
theorem of_mem_items {i : Item} (hi : i ∈ as.items t) :
    (∃ u, i = .leaf u ∧ u.text ∈ t.leafTexts) ∨ ∃ a ∈ as, i = .comment a.comment := by
  induction t using Tree.induction_children with
  | step t ih =>
    cases t with
    | leaf info text =>
      rw [items] at hi
      rcases NodeComments.of_mem_frame hi with hi | ⟨a, ha, hi⟩
      · exact .inl ⟨_, List.mem_singleton.mp hi, List.mem_singleton_self text⟩
      · exact .inr ⟨a, mem_of_mem_at (.inl ha), List.mem_singleton.mp hi⟩
    | branch info ts =>
      rw [items] at hi
      rcases NodeComments.of_mem_frame hi with hi | ⟨a, ha, hi⟩
      · rcases NodeComments.of_mem_tuck hi with ⟨inner, hinner, hi⟩ | ⟨a, ha, hi⟩
        · rw [itemsOfAll_eq_map] at hinner
          obtain ⟨u, hu, rfl⟩ := List.mem_map.mp hinner
          refine (ih u hu hi).imp_left ?_
          rintro ⟨v, rfl, htext⟩
          rw [Tree.leafTexts_branch]
          exact ⟨v, rfl, List.mem_flatMap.mpr ⟨u, hu, htext⟩⟩
        · exact .inr ⟨a, mem_of_mem_at (.inr ha), List.mem_singleton.mp hi⟩
      · exact .inr ⟨a, mem_of_mem_at (.inl ha), List.mem_singleton.mp hi⟩

end Attachments

namespace Parsed

/-- The leaves and comments of a source in the order in which they are shown. -/
def items (p : Parsed) (as : Attachments) : List Item := p.roots.flatMap as.items

/-- A source whose comments are shown in the order of its trees. -/
structure Arranged (p : Parsed) (as : Attachments) : Prop where
  nodes : ∀ t ∈ Tree.nodesOfAll p.roots, as.Orderly t
  roots : p.roots.IsChain as.Parts

/-- A source without comments is arranged. -/
theorem arranged_nil (p : Parsed) : p.Arranged [] := by
  have hparts : ∀ ts : List Tree, ts.IsChain (Attachments.Parts []) := fun ts =>
    (List.pairwise_of_forall fun _ _ => ⟨fun _ => rfl, fun _ => rfl⟩).isChain
  exact ⟨fun t _ => ⟨fun _ => rfl, fun _ => rfl, .nil, fun _ _ _ => rfl, fun _ _ _ => rfl,
    fun _ _ _ => rfl, fun _ _ _ => rfl, hparts t.children⟩, hparts p.roots⟩

/-- A source as it is read from a printed text: it has the trees of the source that was printed, and
the same comments at their nodes, the leaves and comments stand in the text with white space
around them, and every node begins with its first leaf and ends with its last one. The text may
stand in a scaffold. -/
structure Rereads (p' : Parsed) (as' : Attachments) (p : Parsed) (as : Attachments)
    (out : String) : Prop where
  roots : p'.roots.map Tree.outline = p.roots.map Tree.outline
  parent : p'.rootParent = p.rootParent
  comments : as.Alike as' (Tree.nodesOfAll p.roots)
  solid : ∀ c ∈ p'.comments, Text.Solid c.text
  items : ∃ front back, p'.source = .ofText (front ++ out ++ back) ∧
    p'.source.Bears (Text.Utf8.encode front).length out.toList ((p'.items as').map Item.mark)
  ends : ∀ t ∈ Tree.nodesOfAll p'.roots, ∃ first last, t.Ends first last

end Parsed

section Documents

variable {p p' : Parsed} {as as' : Attachments} {out : String}

/-- The roots have the same numbers when the output is read again. -/
theorem Parsed.Rereads.scene_roots (h : p'.Rereads as' p as out) :
    (Scene.of p as).roots = (Scene.of p' as').roots := by
  have hindices := congrArg (List.map Tree.index) h.roots
  simpa [Scene.of, Function.comp_def] using hindices.symm

/-- The same texts are shown of the source and of what is read from the output. -/
theorem Parsed.Rereads.rows_items (h : p'.Rereads as' p as out) :
    (p.items as).flatMap Item.rows = (p'.items as').flatMap Item.rows := by
  rw [Parsed.items, Parsed.items, List.flatMap_assoc, List.flatMap_assoc, List.flatMap_def,
    List.flatMap_def, map_eq_of_map_outline h.roots.symm fun t ht _ houtline =>
      Attachments.Alike.rows_items
        (fun u hu => h.comments u (Tree.mem_nodesOfAll_of_mem ht hu)) houtline]

/-- The texts that are shown of a source begin and end visibly if its leaves and comments do. -/
theorem Parsed.solid_of_mem_rows (hattached : as.map AttachedComment.comment = p.comments)
    (hleaves : ∀ w ∈ p.leafTexts, Text.Solid w) (hcomments : ∀ c ∈ p.comments, Text.Solid c.text) :
    ∀ w ∈ (p.items as).flatMap Item.rows, Text.Solid w := by
  intro w hw
  obtain ⟨i, hi, hw⟩ := List.mem_flatMap.mp hw
  obtain ⟨t, ht, hi⟩ := List.mem_flatMap.mp hi
  rcases Attachments.of_mem_items hi with ⟨u, rfl, hu⟩ | ⟨a, ha, rfl⟩
  · rw [List.mem_singleton.mp hw]
    exact hleaves u.text (List.mem_flatMap.mpr ⟨t, ht, hu⟩)
  · refine Comment.solid_of_mem_rows (hcomments a.comment ?_) w hw
    rw [← hattached]
    exact List.mem_map_of_mem ha

/-- What is read from the output stands in it if what was printed begins and ends visibly. -/
theorem Parsed.Rereads.stands (h : p'.Rereads as' p as out)
    (hattached : as'.map AttachedComment.comment = p'.comments)
    (hsolid : ∀ w ∈ (p.items as).flatMap Item.rows, Text.Solid w) :
    ∀ i ∈ p'.items as', i.Stands p'.source := by
  intro i hi
  obtain ⟨front, back, -, hbears⟩ := h.items
  refine ⟨?_, hbears.exists_span i.mark (List.mem_map_of_mem hi)⟩
  obtain ⟨t, ht, hmem⟩ := List.mem_flatMap.mp hi
  rcases Attachments.of_mem_items hmem with ⟨u, rfl, -⟩ | ⟨a, ha, rfl⟩
  · refine hsolid u.text ?_
    rw [h.rows_items]
    exact List.mem_flatMap.mpr ⟨.leaf u, hi, List.mem_singleton_self _⟩
  · refine h.solid a.comment ?_
    rw [← hattached]
    exact List.mem_map_of_mem ha

/-- What is read from the output is as far apart as it was printed. -/
theorem Parsed.Rereads.heeds (h : p'.Rereads as' p as out)
    (hstands : ∀ i ∈ p'.items as', i.Stands p'.source)
    (hsolid : ∀ w ∈ (p.items as).flatMap Item.rows, Text.Solid w) {ws : List Spot}
    (htexts : ws.map Spot.text = (p.items as).flatMap Item.rows)
    (hbroken : Broken 0 ws out.toList) :
    p'.source.Heeds (ws.map Spot.breaks)
      (((p'.items as').flatMap (Item.marks p'.source)).map Mark.span) := by
  obtain ⟨front, back, hsource, hbears⟩ := h.items
  have hbytes : p'.source.bytes = Text.Utf8.encode front ++
      (out.toList.flatMap String.utf8EncodeChar ++ Text.Utf8.encode back) := by
    rw [hsource, Source.ofText, Text.Utf8.encode_append, Text.Utf8.encode_append,
      List.append_assoc]
    rfl
  have hmarks : ((p'.items as').flatMap (Item.marks p'.source)).map Mark.text =
      ws.map Spot.text := by
    rw [map_text_flatMap_marks hstands, htexts, h.rows_items]
  refine hbears.marks.heeds hbytes hbroken hmarks fun w hw => hsolid w.text ?_
  rw [← htexts]
  exact List.mem_map_of_mem hw

/-- The comments that are read are in order where those that were printed are. -/
theorem Parsed.Rereads.orderly (h : p'.Rereads as' p as out) (harranged : p.Arranged as) :
    ∀ u ∈ Tree.nodesOfAll p'.roots, as'.Orderly u := by
  intro u hu
  obtain ⟨v, hv, houtline⟩ := Tree.exists_node_of_map_outline h.roots.symm hu
  exact (harranged.nodes v hv).of_outline
    (fun w hw => h.comments w (Tree.mem_nodesOfAll_trans hv hw)) houtline

/-- Trees that are read match those that were printed. -/
theorem Parsed.Rereads.forall₂_matches (h : p'.Rereads as' p as out) {ts ts' : List Tree}
    (hts : ts.map Tree.outline = ts'.map Tree.outline) (hw : ∀ t ∈ ts, t.WellShaped)
    (hframed : ∀ u ∈ Tree.nodesOfAll ts, as.Framed u)
    (hbelow : ∀ u ∈ Tree.nodesOfAll ts, u ∈ Tree.nodesOfAll p.roots)
    (hbelow' : ∀ u ∈ Tree.nodesOfAll ts', u ∈ Tree.nodesOfAll p'.roots)
    (hstands : ∀ t ∈ ts', ∀ i ∈ as'.items t, i.Stands p'.source) :
    List.Forall₂ (Tree.Matches as as' p'.source) ts ts' := by
  have halike : as.Alike as' (Tree.nodesOfAll ts) := fun u hu => h.comments u (hbelow u hu)
  refine JavaFormat.forall₂_matches hts
    (fun t ht u hu => halike u (Tree.mem_nodesOfAll_of_mem ht hu)) hw (fun t ht u hu => ?_)
    (fun t ht u hu => ?_) hstands
  · obtain ⟨v, hv, houtline⟩ :=
      Tree.exists_node_of_map_outline hts (Tree.mem_nodesOfAll_of_mem ht hu)
    exact (hframed v hv).of_outline (fun w hw => halike w (Tree.mem_nodesOfAll_trans hv hw))
      houtline
  · exact h.ends u (hbelow' u (Tree.mem_nodesOfAll_of_mem ht hu))

/-- The document of a source shows spots for its leaves and comments, and the source as it is read
from a text in which they are as far apart has the same document. -/
structure Parsed.Settles (p : Parsed) (as : Attachments) (ws : List Spot) : Prop where
  texts : ws.map Spot.text = (p.items as).flatMap Item.rows
  shows : Ensures (document p as) (Strings none · ws none)
  stable : ∀ p' as' out, p'.Rereads as' p as out →
    (∀ i ∈ p'.items as', i.Stands p'.source) →
      p'.source.Heeds (ws.map Spot.breaks)
        (((p'.items as').flatMap (Item.marks p'.source)).map Mark.span) →
          document p as = document p' as'

/-! ### Compilation units -/

section Unit

variable {root : Tree} (hw : p.WellShaped) (hleafy : p.Leafy) (harranged : p.Arranged as)
  (hroots : p.roots = [root]) (hk : root.kind = .program)

include hw hleafy harranged hroots hk

omit hk in
/-- The nodes below a compilation unit are framed. -/
theorem Parsed.Arranged.framed_below : ∀ u ∈ Tree.nodesOfAll root.children, as.Framed u := by
  have hroot : root ∈ p.roots := hroots ▸ List.mem_singleton_self root
  intro u hu
  rw [Tree.nodesOfAll_eq_flatMap] at hu
  obtain ⟨t, ht, hu⟩ := List.mem_flatMap.mp hu
  have hbelow : u ∈ root.nodes :=
    Tree.mem_nodes_trans (Tree.mem_nodes_of_mem_children ht) hu
  exact (harranged.nodes u (Tree.mem_nodesOfAll_of_mem hroot hbelow)).framed
    (hleafy.below hw hroot ht hu) (hw.shaped root hroot u hbelow)

/-- What is printed of a compilation unit. -/
theorem Parsed.ensures_strings_program : Ensures (document p as)
    (Strings none · ((Scene.of p as).spots p.rootParent root) none) := by
  have hroot : root ∈ p.roots := hroots ▸ List.mem_singleton_self root
  have hshaped := hw.shaped root hroot
  obtain ⟨info, ts, rfl⟩ := (hshaped root root.mem_nodes_self).exists_branch (by simp [hk])
    (by rw [hk]; rfl)
  have hself := harranged.nodes _ (Tree.mem_nodesOfAll_of_mem hroot (Tree.mem_nodes_self _))
  have hcomments : (Scene.of p as).attachments.at info.index = {} := hself.own (.inr (.inl hk))
  have hpieces : ∀ q ∈ layOutAll (Scene.of p as) (some info.kind) ts,
      q.Lined ((Scene.of p as).spots (some info.kind) q.node) := by
    intro q hq
    obtain ⟨u, hu, rfl⟩ := exists_of_mem_layOutAll hq
    rw [node_layOut]
    exact lined_layOut _ ((Tree.wellShaped_branch_iff.mp hshaped).2 u hu)
      (fun v hv => hleafy.below hw hroot hu hv) fun v hv => harranged.nodes v
        (Tree.mem_nodesOfAll_of_mem hroot (Tree.mem_nodes_of_child hu hv))
  have hsite : ((Scene.of p as).site p.rootParent (.branch info ts)
      (layOutAll (Scene.of p as) (some info.kind) ts)).Orderly
        fun q => (Scene.of p as).spots (some info.kind) q.node :=
    orderly_site hself (map_node_layOutAll _ (some info.kind) ts) comments_of_mem_layOutAll hpieces
  rw [document_of_program as hroots hk, layOut, Scene.spots, hcomments,
    NodeComments.frame_of_nil rfl rfl, NodeComments.tuck_of_nil rfl, ← Scene.map_spots_layOutAll]
  exact hsite.strings_program hcomments hk

/-- A compilation unit of which what is shown is as far apart as was printed. -/
theorem Parsed.Rereads.document_eq_of_program (h : p'.Rereads as' p as out)
    (hstands : ∀ i ∈ p'.items as', i.Stands p'.source)
    (hheeds : p'.source.Heeds (((Scene.of p as).spots p.rootParent root).map Spot.breaks)
      (((p'.items as').flatMap (Item.marks p'.source)).map Mark.span)) :
    document p as = document p' as' := by
  have hroot : root ∈ p.roots := hroots ▸ List.mem_singleton_self root
  have hshaped := hw.shaped root hroot
  have hregular := hshaped root root.mem_nodes_self
  have hbelow := harranged.framed_below hw hleafy hroots
  obtain ⟨root', hroots', houtline⟩ := List.map_eq_singleton_iff.mp
    (h.roots.trans (by rw [hroots, List.map_singleton]))
  have hk' : root'.kind = .program := by
    rw [← Tree.kind_outline, houtline, Tree.kind_outline, hk]
  have hnodes : ∀ u ∈ root.nodes, u ∈ Tree.nodesOfAll p.roots := fun u hu =>
    Tree.mem_nodesOfAll_of_mem hroot hu
  have hnodes' : ∀ u ∈ root'.nodes, u ∈ Tree.nodesOfAll p'.roots := fun u hu =>
    Tree.mem_nodesOfAll_of_mem (hroots' ▸ List.mem_singleton_self root') hu
  have hitems : p'.items as' = as'.items root' := by
    rw [Parsed.items, hroots', List.flatMap_singleton]
  rw [hitems] at hstands hheeds
  rw [document_of_program as hroots hk, document_of_program as' hroots' hk', h.parent]
  obtain ⟨info, ts, rfl⟩ := hregular.exists_branch (by simp [hk]) (by rw [hk]; rfl)
  cases root' with
  | leaf => cases houtline
  | branch info' ts' =>
    have hts : ts.map Tree.outline = ts'.map Tree.outline := by
      rw [← Tree.outlineOfAll_eq_map, ← Tree.outlineOfAll_eq_map]
      exact (Tree.branch.inj houtline).2.symm
    have hmatches : List.Forall₂ (Tree.Matches as as' p'.source) ts ts' := by
      refine h.forall₂_matches hts (Tree.wellShaped_branch_iff.mp hshaped).2 hbelow
        (fun u hu => hnodes u ?_) (fun u hu => hnodes' u ?_) fun t ht i hi => hstands i ?_
      · rw [Tree.nodes]
        exact List.mem_append_left _ hu
      · rw [Tree.nodes]
        exact List.mem_append_left _ hu
      · rw [Attachments.items, Attachments.itemsOfAll_eq_map]
        exact NodeComments.mem_frame_tuck (List.mem_map_of_mem ht) hi
    have horderly : ∀ u ∈ (Tree.branch info' ts').nodes, as'.Orderly u := fun u hu =>
      h.orderly harranged u (hnodes' u hu)
    have hends : ∀ u ∈ (Tree.branch info' ts').nodes, ∃ first last, u.Ends first last :=
      fun u hu => h.ends u (hnodes' u hu)
    have hsame : (Scene.of p as).attachments.Alike (Scene.of p' as').attachments
        (Tree.branch info ts).nodes := fun u hu => h.comments u (hnodes u hu)
    obtain ⟨hks, hmarks⟩ := heeds_of_branch p.rootParent houtline.symm hsame
      (horderly _ (Tree.mem_nodes_self _)) hstands hmatches hheeds
    have hlaid := map_outline_layOutAll_eq_of_heeds h.scene_roots _ hmatches hmarks
    exact doc_eq_of_outline (outline_layOut_branch_eq h.scene_roots p.rootParent
      houtline.symm hsame hregular horderly hends hlaid hks)

end Unit

/-! ### Fragments -/

section Fragment

variable (hw : p.WellShaped) (hleafy : p.Leafy) (harranged : p.Arranged as)
  (hunit : ¬∃ root, p.roots = [root] ∧ root.kind = .program)

include hw hleafy harranged hunit

omit hw harranged in
/-- The nodes of a leafy fragment are leafy: only compilation units are excepted. -/
theorem Parsed.Leafy.of_fragment : ∀ u ∈ Tree.nodesOfAll p.roots, u.Leafy := fun u hu =>
  (hleafy u hu).resolve_right fun h => hunit ⟨u, h⟩

/-- The nodes of a fragment are framed. -/
theorem Parsed.Arranged.framed_of_fragment : ∀ u ∈ Tree.nodesOfAll p.roots, as.Framed u := by
  intro u hu
  have hself := harranged.nodes u hu
  have hleafy := hleafy.of_fragment hunit u hu
  rw [Tree.nodesOfAll_eq_flatMap] at hu
  obtain ⟨t, ht, hu⟩ := List.mem_flatMap.mp hu
  exact hself.framed hleafy (hw.shaped t ht u hu)

/-- What is printed of a fragment. -/
theorem Parsed.ensures_strings_fragment : Ensures (document p as) (Strings none ·
    (splice (membersBreaks p.source (fragmentGap p.rootParent)
      (layOutAll (Scene.of p as) p.rootParent p.roots))
        ((Scene.of p as).spotsOfAll p.rootParent p.roots)) none) := by
  have hpieces : ∀ q ∈ layOutAll (Scene.of p as) p.rootParent p.roots,
      q.Lined ((Scene.of p as).spots p.rootParent q.node) := by
    intro q hq
    obtain ⟨t, ht, rfl⟩ := exists_of_mem_layOutAll hq
    rw [node_layOut]
    exact lined_layOut _ (hw.shaped t ht)
      (fun u hu => hleafy.of_fragment hunit u (Tree.mem_nodesOfAll_of_mem ht hu))
      fun u hu => harranged.nodes u (Tree.mem_nodesOfAll_of_mem ht hu)
  have hchain : (layOutAll (Scene.of p as) p.rootParent p.roots).IsChain
      Piece.AdmitsSemicolon := by
    have hroots := harranged.roots
    rw [← map_node_layOutAll (Scene.of p as) p.rootParent p.roots, List.isChain_map] at hroots
    exact hroots.imp_of_mem_imp fun q r hq _ hparts hr => by
      rw [comments_of_mem_layOutAll q hq]
      exact hparts.semicolon hr
  rw [document_of_fragment as hw.roots_ne_nil hunit, ← Scene.map_spots_layOutAll]
  exact strings_fragmentDoc p hpieces hchain (layOutAll_ne_nil _ _ hw.roots_ne_nil)

omit hleafy harranged in
/-- A fragment is read as a fragment. -/
theorem Parsed.Rereads.fragment (h : p'.Rereads as' p as out) :
    p'.roots ≠ [] ∧ ¬∃ root, p'.roots = [root] ∧ root.kind = .program := by
  have hroots := h.roots
  constructor
  · intro hnil
    rw [hnil] at hroots
    exact hw.roots_ne_nil (List.map_eq_nil_iff.mp hroots.symm)
  · rintro ⟨root', hroots', hk'⟩
    rw [hroots', List.map_singleton] at hroots
    obtain ⟨root, hroot, houtline⟩ := List.map_eq_singleton_iff.mp hroots.symm
    refine hunit ⟨root, hroot, ?_⟩
    rw [← Tree.kind_outline, houtline, Tree.kind_outline, hk']

/-- A fragment of which what is shown is as far apart as was printed. -/
theorem Parsed.Rereads.document_eq_of_fragment (h : p'.Rereads as' p as out)
    (hstands : ∀ i ∈ p'.items as', i.Stands p'.source)
    (hheeds : p'.source.Heeds ((splice (membersBreaks p.source (fragmentGap p.rootParent)
      (layOutAll (Scene.of p as) p.rootParent p.roots))
        ((Scene.of p as).spotsOfAll p.rootParent p.roots)).map Spot.breaks)
          (((p'.items as').flatMap (Item.marks p'.source)).map Mark.span)) :
    document p as = document p' as' := by
  obtain ⟨hne, hunit'⟩ := h.fragment hw hunit
  have hmatches : List.Forall₂ (Tree.Matches as as' p'.source) p.roots p'.roots :=
    h.forall₂_matches h.roots.symm hw.shaped (harranged.framed_of_fragment hw hleafy hunit)
      (fun _ hu => hu) (fun _ hu => hu) fun t ht i hi =>
        hstands i (List.mem_flatMap.mpr ⟨t, ht, hi⟩)
  have hnone : ({} : NodeComments).outline .block = ({} : NodeComments).outline .block := rfl
  have hitems : p'.items as' = (as'.itemsOfAll p'.roots).flatten := by
    rw [Parsed.items, List.flatMap_def, Attachments.itemsOfAll_eq_map]
  rw [hitems] at hheeds
  obtain ⟨hks, hmarks⟩ := heeds_children hnone (fun _ ha => by cases ha)
    (fun hne => absurd rfl hne) hmatches (by
      rw [NodeComments.tuck_of_nil rfl, NodeComments.tuck_of_nil rfl]
      exact hheeds)
  have hlaid := map_outline_layOutAll_eq_of_heeds h.scene_roots _ hmatches hmarks
  have hmembers : members p.source (fragmentGap p.rootParent) _ =
      members p'.source (fragmentGap p.rootParent) _ :=
    members_eq_of_heeds (placeless_fragmentGap p.rootParent) hlaid (by
      rw [map_extent_layOutAll]
      exact hks)
  rw [document_of_fragment as hw.roots_ne_nil hunit, document_of_fragment as' hne hunit',
    h.parent, fragmentDoc, fragmentDoc, h.parent, hmembers]

end Fragment

/-! ### Sources -/

/-- Every source whose comments are shown in order settles. -/
theorem Parsed.exists_settles (hw : p.WellShaped) (hleafy : p.Leafy) (harranged : p.Arranged as) :
    ∃ ws, p.Settles as ws := by
  by_cases hunit : ∃ root, p.roots = [root] ∧ root.kind = .program
  · obtain ⟨root, hroots, hk⟩ := hunit
    refine ⟨_, ?_, ensures_strings_program hw hleafy harranged hroots hk,
      fun p' as' out h hstands hheeds =>
        h.document_eq_of_program hw hleafy harranged hroots hk hstands hheeds⟩
    rw [Scene.map_text_spots, Parsed.items, hroots, List.flatMap_singleton]
    rfl
  · refine ⟨_, ?_, ensures_strings_fragment hw hleafy harranged hunit,
      fun p' as' out h hstands hheeds =>
        h.document_eq_of_fragment hw hleafy harranged hunit hstands hheeds⟩
    rw [map_text_splice, Scene.spotsOfAll_eq_map, List.flatMap_map, Parsed.items,
      List.flatMap_assoc]
    exact List.flatMap_congr fun t _ => Scene.map_text_spots _ _ t

end Documents

namespace Formatter

open Doc

/-- Formatting a source whose comments are shown in order is stable, whatever the options are: the
source as it is read from the output with its comments where they were has the same document,
and so the same output. -/
theorem layOut_eq_of_rereads (options : Options) {p : Parsed} {as : Attachments}
    (h : p.WellShaped) (hleafy : p.Leafy) (hattach : p.attach options.tieBreak = .ok as)
    (harranged : p.Arranged as) (hleaves : ∀ w ∈ p.leafTexts, Text.Solid w)
    (hcomments : ∀ c ∈ p.comments, Text.Solid c.text) :
    ∃ d out, layOut options p = .ok d ∧ renderDoc options d = .ok out ∧ ∀ p' as',
      p'.attach options.tieBreak = .ok as' → p'.Rereads as' p as out →
        layOut options p' = .ok d := by
  obtain ⟨as₁, cs, d, hattached, hd, hremarked, hweaves⟩ := exists_layOut options h
  obtain rfl : as = as₁ := Except.ok.inj (hattach.symm.trans hattached)
  have hdocument := document_of_attach hattach hd
  obtain ⟨out, q, hrender, hq, hemits⟩ := exists_settled options hweaves.sound hweaves.shallow
  obtain ⟨ws, hsettles⟩ := Parsed.exists_settles h hleafy harranged
  have hsolid := Parsed.solid_of_mem_rows hremarked.comments hleaves hcomments
  have hvisible : ∀ w ∈ ws, Text.EndsVisibly w.text := by
    intro w hw
    refine (hsolid w.text ?_).ends
    rw [← hsettles.texts]
    exact List.mem_map_of_mem hw
  obtain ⟨rest, hout, hbroken⟩ := exists_broken (hsettles.shows d hdocument q hq) hvisible [] []
    (by simp) (by simp) (by simp [Closed]) hemits
  rw [List.reverse_reverse, List.reverse_nil, List.nil_append] at hout
  refine ⟨d, out, hd, by rw [renderDoc, hrender], fun p' as' hattach' hp' => ?_⟩
  rw [← hout] at hbroken
  have hne : p'.roots ≠ [] := by
    intro hnil
    have hroots := hp'.roots
    rw [hnil] at hroots
    exact h.roots_ne_nil (List.map_eq_nil_iff.mp hroots.symm)
  obtain ⟨as₂, hattached', hremarked', -⟩ := p'.exists_attach options.tieBreak hne
  obtain rfl : as' = as₂ := Except.ok.inj (hattach'.symm.trans hattached')
  have hstands := hp'.stands hremarked' hsolid
  have hheeds := hp'.heeds hstands hsolid hsettles.texts hbroken
  have hsame := hsettles.stable p' as' out hp' hstands hheeds
  exact layOut_eq_ok_iff.mpr ⟨as', hattach', hsame ▸ hdocument⟩

/-- Two statements of a keyword each, the first byte of each given, and a comment. -/
def twoBreaks (source : Source) (first second : Nat) (c : Comment) : Parsed :=
  let statement (index start : Nat) : Tree :=
    .branch ⟨index + 2, .breakStatement, none, source.span start (start + 6)⟩ [
      .leaf ⟨index, .token, none, source.span start (start + 5)⟩ "break",
      .leaf ⟨index + 1, .token, none, source.span (start + 5) (start + 6)⟩ ";"]
  let statements := [statement 0 first, statement 3 second]
  ⟨.branch ⟨6, .block, none, source.span first (second + 6)⟩ statements, statements,
    some .block, [c], source⟩

/-- A comment in front of the second statement, with blank lines above it. -/
def aboveBreak (c : Comment) (above : Nat) : Attachments :=
  [⟨c, .leading, 5, above, 0, true, true⟩]

/-- The comment is in front of the second statement only. -/
theorem at_aboveBreak (c : Comment) (above i : Nat) : (aboveBreak c above).at i =
    if i = 5 then { leading := aboveBreak c above } else {} := by
  by_cases hi : i = 5
  · subst hi
    rfl
  · simp [Attachments.at, aboveBreak, hi, Ne.symm hi]

section TwoBreaks

variable (source : Source) (first second : Nat) (c : Comment)

/-- The source with two statements is well shaped. -/
theorem wellShaped_twoBreaks : (twoBreaks source first second c).WellShaped where
  roots_ne_nil := List.cons_ne_nil _ _
  shaped := by
    have hbreak : NodeKind.breakStatement.isVerbatim = false := rfl
    simp [twoBreaks, Tree.Regular, Shape.Allowed, hbreak]
  numbered := by simp [twoBreaks, Tree.nodesOfAll, Tree.nodes, Tree.index, Tree.info]

/-- The source with two statements is leafy. -/
theorem leafy_twoBreaks : (twoBreaks source first second c).Leafy := by
  intro t ht
  simp only [twoBreaks, Tree.nodesOfAll, Tree.nodes, List.append_nil, List.cons_append,
    List.nil_append, List.mem_cons, List.not_mem_nil, or_false] at ht
  rcases ht with rfl | rfl | rfl | rfl | rfl | rfl
  all_goals exact .inl ⟨by simp [Tree.kind, Tree.info], by simp, trivial⟩

/-- The comment in front of the second statement is in order. -/
theorem arranged_twoBreaks (above : Nat) :
    (twoBreaks source first second c).Arranged (aboveBreak c above) := by
  have hparts : ∀ t u : Tree, t.index ≠ 5 → t.kind ≠ .modifiers →
      (aboveBreak c above).Parts t u := fun t u hindex hk =>
    ⟨fun _ => by rw [at_aboveBreak, if_neg hindex], fun hmodifiers => absurd hmodifiers hk⟩
  refine ⟨fun t ht => ?_, ?_⟩
  · simp only [twoBreaks, Tree.nodesOfAll, Tree.nodes, List.append_nil, List.cons_append,
      List.nil_append, List.mem_cons, List.not_mem_nil, or_false] at ht
    rcases ht with rfl | rfl | rfl | rfl | rfl | rfl
    all_goals constructor
    case refine_1.inr.inr.inl.neighbours | refine_1.inr.inr.inr.inr.inr.neighbours =>
      exact List.isChain_pair.mpr (hparts _ _ (by simp [Tree.index, Tree.info])
        (by simp [Tree.kind, Tree.info]))
    all_goals simp [at_aboveBreak, Tree.index, Tree.info, Tree.kind, Tree.children]
  · exact List.isChain_pair.mpr (hparts _ _ (by simp [Tree.index, Tree.info])
      (by simp [Tree.kind, Tree.info]))

end TwoBreaks

/-- A remark of two lines, the first and last byte of it given, with the stars below each other or
not. -/
def starred (source : Source) (start stop : Nat) (aligned : Bool) : Comment :=
  ⟨if aligned then "/* a\n * b */" else "/* a\n* b */", false, source.span start stop⟩

/-- The remark is printed with its stars below each other. -/
theorem outline_starred (source : Source) (start stop : Nat) (aligned : Bool) :
    (starred source start stop aligned).outline = ⟨"/* a\n * b */", false, .nowhere⟩ := by
  have hsettled : ∀ aligned, (starred (.ofText "") 0 0 aligned).settledText = "/* a\n * b */" := by
    decide +kernel
  exact congrArg (Comment.mk · false .nowhere) (hsettled aligned)

/-- The statements and the remark stand in their output, with line feeds between them. -/
theorem bears_twoBreaks (source : Source) (o : Nat) :
    let c := starred source (o + 8) (o + 20) true
    source.Bears o "break;\n\n/* a\n * b */\nbreak;\n".toList
      (((twoBreaks source o (o + 21) c).items (aboveBreak c 1)).map Item.mark) := by
  have hfeed : Text.isBlank '\n' = true := by decide
  show source.Bears o ("break".toList ++ (";".toList ++ '\n' :: '\n' ::
    ("/* a\n * b */".toList ++ '\n' :: ("break".toList ++ (";".toList ++ ['\n'])))))
    [⟨"break", source.span o (o + 5)⟩, ⟨";", source.span (o + 5) (o + 6)⟩,
      ⟨"/* a\n * b */", source.span (o + 8) (o + 20)⟩,
      ⟨"break", source.span (o + 21) (o + 26)⟩, ⟨";", source.span (o + 26) (o + 27)⟩]
  exact .text (.text (.gap hfeed (.gap hfeed (.text (.gap hfeed (.text (.text (.gap hfeed
    .done))))))))

/-- What is attached when the statements are read from their output. -/
theorem rereads_twoBreaks (front back : String) :
    let o := (Text.Utf8.encode front).length
    let written := Source.ofText "break;\n\n\n/* a\n* b */\nbreak;"
    let c := starred written 9 20 false
    let out := "break;\n\n/* a\n * b */\nbreak;\n"
    let source := Source.ofText (front ++ out ++ back)
    let c' := starred source (o + 8) (o + 20) true
    (twoBreaks source o (o + 21) c').Rereads (aboveBreak c' 1)
      (twoBreaks written 0 21 c) (aboveBreak c 2) out := by
  intro o written c out source c'
  have hremark : c.outline = c'.outline :=
    (outline_starred _ _ _ _).trans (outline_starred _ _ _ _).symm
  refine ⟨rfl, rfl, fun t ht => ?_, fun d hd => ?_, ⟨front, back, rfl, bears_twoBreaks source o⟩,
    fun t ht => ?_⟩
  · rw [at_aboveBreak, at_aboveBreak]
    split
    · simp [NodeComments.outline, aboveBreak, AttachedComment.outlineAbove, hremark]
    · rfl
  · rw [List.mem_singleton.mp hd]
    show Text.Solid "/* a\n * b */"
    decide
  · simp only [twoBreaks, Tree.nodesOfAll, Tree.nodes, List.append_nil, List.cons_append,
      List.nil_append, List.mem_cons, List.not_mem_nil, or_false] at ht
    rcases ht with rfl | rfl | rfl | rfl | rfl | rfl
    all_goals exact ⟨_, _, rfl, rfl, rfl, rfl⟩

/-- Of two statements with a remark between them the second one is printed below one blank line, and
the remark with its stars below each other. -/
theorem printed_twoBreaks :
    let written := Source.ofText "break;\n\n\n/* a\n* b */\nbreak;"
    (layOut {} (twoBreaks written 0 21 (starred written 9 20 false)) >>= renderDoc {}) =
      .ok "break;\n\n/* a\n * b */\nbreak;\n" := by
  decide +kernel

/-- Of three line feeds in front of a remark two are printed, the second line of the remark is moved
below the first one, and both stay when the output is read in a scaffold. -/
theorem layOut_eq_of_rereads_twoBreaks :
    let written := Source.ofText "break;\n\n\n/* a\n* b */\nbreak;"
    let p := twoBreaks written 0 21 (starred written 9 20 false)
    let as := aboveBreak (starred written 9 20 false) 2
    let out := "break;\n\n/* a\n * b */\nbreak;\n"
    let entry := EntryPoint.blockStatements
    let o := entry.fragmentStart
    let printed := Source.ofText (entry.opening ++ out ++ entry.closing)
    let p' := twoBreaks printed o (o + 21) (starred printed (o + 8) (o + 20) true)
    let as' := aboveBreak (starred printed (o + 8) (o + 20) true) 1
    p.WellShaped ∧ p.Leafy ∧ p.attach ({} : Options).tieBreak = .ok as ∧ p.Arranged as ∧
      (∀ w ∈ p.leafTexts, Text.Solid w) ∧ (∀ c ∈ p.comments, Text.Solid c.text) ∧
      p'.attach ({} : Options).tieBreak = .ok as' ∧ p'.Rereads as' p as out ∧
      ∃ d, layOut {} p = .ok d ∧ renderDoc {} d = .ok out ∧ layOut {} p' = .ok d := by
  intro written p as out entry o printed p' as'
  have hshape : p.WellShaped := wellShaped_twoBreaks _ _ _ _
  have hleafy : p.Leafy := leafy_twoBreaks _ _ _ _
  have hattach : p.attach ({} : Options).tieBreak = .ok as := by decide +kernel
  have harranged : p.Arranged as := arranged_twoBreaks _ _ _ _ _
  have hleaves : ∀ w ∈ p.leafTexts, Text.Solid w := by decide
  have hcomments : ∀ c ∈ p.comments, Text.Solid c.text := by decide
  have hattach' : p'.attach ({} : Options).tieBreak = .ok as' := by decide +kernel
  have hreads : p'.Rereads as' p as out := rereads_twoBreaks entry.opening entry.closing
  obtain ⟨d, text, hd, htext, hstable⟩ :=
    layOut_eq_of_rereads {} hshape hleafy hattach harranged hleaves hcomments
  obtain rfl : text = out := by
    have hprints : (layOut {} p >>= renderDoc {}) = .ok out := printed_twoBreaks
    rw [hd] at hprints
    exact Except.ok.inj (htext.symm.trans hprints)
  exact ⟨hshape, hleafy, hattach, harranged, hleaves, hcomments, hattach', hreads, d, hd, htext,
    hstable p' as' hattach' hreads⟩

end Formatter

end JavaFormat
