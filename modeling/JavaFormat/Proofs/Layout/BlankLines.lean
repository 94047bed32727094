import JavaFormat.Proofs.Comments.Targets
import JavaFormat.Proofs.Doc.Closing
import JavaFormat.Proofs.Layout.FirmTrees

/-!
# Blank lines

The output begins with no line feed, never has two blank lines one below the other, and
ends with one line feed behind a visible character. Blank lines come from many places: the
gap between members, the blank lines of the source above members and around comments, the
constants of an enumeration. No two of them meet, because the layout of every node is firm.
The line feed at the end is the last part of the document of a source, to which nothing is
added: no comment is put in front of a compilation unit or behind it.
-/

namespace JavaFormat

open Doc

/-- A source every node of which covers a leaf and has the children that the grammar puts at
its edges. A compilation unit need not cover a leaf, and it is the only root if there is one. -/
def Parsed.Leafy (p : Parsed) : Prop :=
  ∀ t ∈ Tree.nodesOfAll p.roots, t.Leafy ∨ p.roots = [t] ∧ t.kind = .program

/-! ## Comments of a compilation unit -/

namespace Parsed

variable {p : Parsed} {root : Tree}

/-- A comment of a compilation unit is put inside it or to a node below it. -/
theorem dangling_or_below (hroots : p.roots = [root]) (hk : root.kind = .program)
    {policy : TieBreak} {c : Comment} {place : Placement}
    (h : Placement.of? policy p c = some place) :
    place.role = .dangling ∨ root.IsBelow place.node := by
  have hbelow : (Surroundings.of p c).Below root := by
    unfold Surroundings.of
    dsimp only
    rw [hroots]
    dsimp only
    rw [if_pos hk]
    exact Surroundings.below_inside _ _ root
  unfold Placement.of? at h
  dsimp only at h
  split at h
  · rename_i body hbody
    obtain ⟨⟨v, hv, hmem⟩, -⟩ := hbelow.following body (Placement.following_of_bodyAhead? hbody)
    obtain rfl := Option.some.inj h
    unfold Placement.intoBody
    split
    · exact .inl rfl
    · rename_i member members hmembers
      have hchild : member ∈ body.children :=
        List.mem_of_mem_filter (hmembers ▸ List.mem_cons_self : member ∈ body.namedChildren)
      exact .inr ⟨v, hv, Tree.mem_nodes_trans hmem (Tree.mem_nodes_of_mem_children hchild)⟩
  · rcases Placement.of_choose? h with ⟨hprevious, -⟩ | ⟨hfollowing, -⟩ | ⟨-, -, -, hrole⟩
    · exact .inr (hbelow.previous _ hprevious).1
    · exact .inr (hbelow.following _ hfollowing).1
    · exact .inl hrole

/-- A node below a root is leafy, since it is no root itself. -/
theorem Leafy.below (h : p.Leafy) (hw : p.WellShaped) (hroot : root ∈ p.roots) {t u : Tree}
    (ht : t ∈ root.children) (hu : u ∈ t.nodes) : u.Leafy := by
  have hmem : u ∈ Tree.nodesOfAll p.roots := Tree.mem_nodesOfAll_of_mem hroot
    (Tree.mem_nodes_iff.mpr (.inr ⟨t, ht, hu⟩))
  refine (h u hmem).resolve_right ?_
  rintro ⟨halone, -⟩
  have hself : u ∈ p.roots := by
    rw [halone]
    exact List.mem_singleton_self u
  exact not_mem_roots_of_below hw.numbered.of_map hroot ht hu hself

variable {policy : TieBreak} {as : Attachments}

/-- The comments of a compilation unit itself are all inside it. A node below the root has another
number. -/
theorem role_of_root (hw : p.WellShaped) (hroots : p.roots = [root]) (hk : root.kind = .program)
    (hattach : p.attach policy = .ok as) {a : AttachedComment} (ha : a ∈ as)
    (hnode : a.node = root.index) : a.role = .dangling := by
  obtain ⟨c, -, place, hplace, rfl⟩ := exists_of?_of_attach hattach ha
  have hroot : root ∈ p.roots := by
    rw [hroots]
    exact List.mem_singleton_self root
  rcases dangling_or_below hroots hk hplace with hrole | ⟨v, hv, hmem⟩
  · exact hrole
  · have hbelow : place.node ∈ root.nodes :=
      Tree.mem_nodes_trans (Tree.mem_nodes_of_mem_children hv) hmem
    have hself : place.node = root := List.inj_on_of_nodup_map hw.numbered
      (Tree.mem_nodesOfAll_of_mem hroot hbelow)
      (Tree.mem_nodesOfAll_of_mem hroot root.mem_nodes_self) hnode
    rw [hself] at hmem
    exact absurd hroot (not_mem_roots_of_below hw.numbered.of_map hroot hv hmem)

/-- There are no comments in front of a compilation unit or behind it. -/
theorem inRole_root_eq_nil (hw : p.WellShaped) (hroots : p.roots = [root])
    (hk : root.kind = .program) (hattach : p.attach policy = .ok as) {role : CommentRole}
    (hrole : role ≠ .dangling) : (as.at root.index).inRole role = [] := by
  rw [List.eq_nil_iff_forall_not_mem]
  intro a ha
  obtain ⟨hnode, hsame⟩ := Attachments.of_mem_inRole_at ha
  have hmem := (Attachments.inRole_at_sublist as root.index role).mem ha
  exact hrole (hsame.symm.trans (role_of_root hw hroots hk hattach hmem hnode))

end Parsed

namespace Layout

/-! ## The document of a source -/

/-- A document of a source: it prints nothing, or something firm and the last line break. -/
def Closes (d : Doc) : Prop := (∀ q, d.Scripts q → q = []) ∨ Terminated d ∧ Keeps 2 1 d

/-- Nothing closes an output that is closed. -/
theorem closes_nothing : Closes (.text "") := .inl fun _ hq => hq

/-- A firm document with a line break behind it closes the output. -/
theorem closes_cat {d : Doc} (h : Firm d) : Closes (cat [d, hardline]) :=
  .inr ⟨terminated_cat [d], keeps_cat.mpr (.cons h (.single keeps_hardline))⟩

/-- A terminated document is a concatenation of two parts or more, which stands for itself. -/
theorem cat_of_terminated {d : Doc} (h : Terminated d) : cat [d] = d := by
  obtain ⟨ds, rfl⟩ := h
  have hparts : [Doc.concat (ds ++ breakParts)].flatMap flatten = ds ++ breakParts := by simp [flatten]
  rw [cat, hparts]
  cases ds with
  | nil => rfl
  | cons e es => cases es <;> rfl

/-- Comments inside a compilation unit are printed by its rule, so nothing is put around it. -/
theorem closes_wrap {piece : Piece} (hk : piece.kind = .program)
    (hleading : piece.comments.leading = []) (htrailing : piece.comments.trailing = []) {d : Doc}
    (hd : Closes d) : Closes (piece.wrap true d) := by
  have hprinted : printsDangling piece.kind = true := by
    rw [hk]
    rfl
  have hwrapped : piece.wrap true d = d ∨ piece.wrap true d = cat [d] := by
    unfold Piece.wrap
    split
    · exact .inl rfl
    · right
      simp [hleading, htrailing, hprinted]
  rcases hwrapped with heq | heq
  · rw [heq]
    exact hd
  · rw [heq]
    rcases hd with hnothing | ⟨hterminated, hkeeps⟩
    · refine .inl fun q hq => hnothing q ?_
      simpa using hq
    · rw [cat_of_terminated hterminated]
      exact .inr ⟨hterminated, hkeeps⟩

/-- The parts of a fragment, one a line. -/
theorem ensures_fragmentDoc (p : Parsed) {ps : List Piece} (h : ∀ piece ∈ ps, piece.Firm)
    (hne : ps ≠ []) : Ensures (fragmentDoc p ps) Closes :=
  (ensures_members p.source (fragmentGap p.rootParent) h hne).bind fun _ hd => .pure (closes_cat hd)

/-- A compilation unit: its comments and its parts, one a line. -/
theorem Site.Firm.program {s : Site} (h : s.Firm) : Ensures s.program Closes := by
  refine (ensures_members? s.source Gap.ofProgram h.children).bind fun contents hcontents => ?_
  split
  · exact .pure closes_nothing
  · rename_i hne
    have hall : ∀ d ∈ s.comments.danglingBlock?.toList ++ contents.toList, Doc.Firm d :=
      List.forall_mem_append.mpr ⟨h.comments.firm_danglingBlock, hcontents⟩
    exact .pure (closes_cat (Firm.join keeps_hardline (by decide) hall hne))

/-- The piece of a compilation unit with no comments in front of it or behind it. -/
theorem Site.Firm.closes_piece {s : Site} (h : s.Firm) (hk : s.node.kind = .program)
    (hleading : s.comments.leading = []) (htrailing : s.comments.trailing = []) :
    Ensures s.piece.doc Closes := by
  have hbare : Ensures s.piece.bare Closes := by
    have hrule : s.bare = s.program := by
      unfold Site.bare
      rw [hk]
    have hpiece : s.piece.bare = s.bare := rfl
    rw [hpiece, hrule]
    exact h.program
  have hkind : s.piece.kind = .program := hk
  exact hbare.map fun _ hd => closes_wrap hkind hleading htrailing hd

variable {p : Parsed} {as : Attachments} {policy : TieBreak}

/-- The document of a compilation unit that stands alone. -/
theorem ensures_doc_program {scene : Scene} (hcomments : ∀ i, (scene.attachments.at i).Firm)
    (parent : Option NodeKind) {root : Tree} (hk : root.kind = .program)
    (hleading : (scene.attachments.at root.index).leading = [])
    (htrailing : (scene.attachments.at root.index).trailing = []) (hw : root.WellShaped)
    (hleafy : ∀ t ∈ root.children, ∀ u ∈ t.nodes, u.Leafy)
    (htexts : ∀ w ∈ root.leafTexts, Text.Inline w) :
    Ensures (layOut scene parent root).doc Closes := by
  obtain ⟨info, ts, rfl⟩ := (hw root root.mem_nodes_self).exists_branch (by simp [hk])
    (by rw [hk]; rfl)
  have hsite : (scene.site parent (.branch info ts)
      (layOutAll scene (some info.kind) ts)).Firm := by
    refine ⟨fun piece hpiece => ?_, hcomments _⟩
    obtain ⟨t, ht, rfl⟩ := exists_of_mem_layOutAll hpiece
    refine firm_layOut hcomments _ ((Tree.wellShaped_branch_iff.mp hw).2 t ht) (hleafy t ht) ?_
    intro w hmem
    rw [Tree.leafTexts_branch] at htexts
    exact htexts w (List.mem_flatMap.mpr ⟨t, ht, hmem⟩)
  rw [layOut]
  exact hsite.closes_piece hk hleading htrailing

/-- The document of a source prints nothing, or closes with a line break. -/
theorem ensures_document (hw : p.WellShaped) (hleafy : p.Leafy)
    (hleaves : ∀ w ∈ p.leafTexts, Text.Inline w) (hattach : p.attach policy = .ok as)
    (hcomments : ∀ a ∈ as, Firm a.comment.doc) : Ensures (document p as) Closes := by
  have hfirm : ∀ i, (as.at i).Firm := fun i =>
    ⟨fun a ha => hcomments a ((as.inRole_at_sublist i .leading).mem ha),
      fun a ha => hcomments a ((as.inRole_at_sublist i .trailing).mem ha),
      fun a ha => hcomments a ((as.inRole_at_sublist i .dangling).mem ha)⟩
  have htexts : ∀ t ∈ p.roots, ∀ w ∈ t.leafTexts, Text.Inline w := fun t ht w hmem =>
    hleaves w (List.mem_flatMap.mpr ⟨t, ht, hmem⟩)
  by_cases hunit : ∃ root, p.roots = [root] ∧ root.kind = .program
  · obtain ⟨root, hroots, hk⟩ := hunit
    have hroot : root ∈ p.roots := by
      rw [hroots]
      exact List.mem_singleton_self root
    have hleading : (as.at root.index).inRole .leading = [] :=
      Parsed.inRole_root_eq_nil hw hroots hk hattach (by simp)
    have htrailing : (as.at root.index).inRole .trailing = [] :=
      Parsed.inRole_root_eq_nil hw hroots hk hattach (by simp)
    have hdoc : Ensures (layOut (Scene.of p as) p.rootParent root).doc Closes :=
      ensures_doc_program hfirm p.rootParent hk hleading htrailing (hw.shaped root hroot)
        (fun t ht u hu => hleafy.below hw hroot ht hu) (htexts root hroot)
    rwa [document_of_program as hroots hk]
  · have hpieces : ∀ piece ∈ layOutAll (Scene.of p as) p.rootParent p.roots, piece.Firm := by
      intro piece hpiece
      obtain ⟨t, ht, rfl⟩ := exists_of_mem_layOutAll hpiece
      refine firm_layOut hfirm _ (hw.shaped t ht) (fun u hu => ?_) (htexts t ht)
      exact (hleafy u (Tree.mem_nodesOfAll_of_mem ht hu)).resolve_right fun h => hunit ⟨u, h⟩
    rw [document_of_fragment as hw.roots_ne_nil hunit]
    exact ensures_fragmentDoc p hpieces (layOutAll_ne_nil _ _ hw.roots_ne_nil)

/-- A document that prints nothing has no leaf in which something is seen, and no comment. -/
theorem Woven.eq_nil {ls : List String} {cs : Multiset Remark} {gs : List Glyph}
    (h : Woven ls cs gs) (hgs : gs = []) (hls : ∀ w ∈ ls, Text.visible w ≠ [])
    (hcs : ∀ a ∈ cs, Text.visible a.comment.text ≠ []) : ls = [] ∧ cs = 0 := by
  cases h with
  | done => exact ⟨rfl, rfl⟩
  | gap _ => cases hgs
  | stop _ => cases hgs
  | blank _ => cases hgs
  | leaf w hspells _ =>
    obtain ⟨rfl, -⟩ := List.append_eq_nil_iff.mp hgs
    have hseen := visible_inked w
    rw [← hspells.readOff] at hseen
    exact absurd hseen.symm (hls w List.mem_cons_self)
  | comment a ha _ =>
    obtain ⟨rfl, -⟩ := List.append_eq_nil_iff.mp hgs
    exact absurd (visible_of_scripts ha).symm (hcs a (Multiset.mem_cons_self a _))

end Layout

/-- Something is seen of a text that begins visibly. -/
theorem Text.BeginsVisibly.visible_ne_nil {w : String} (h : Text.BeginsVisibly w) :
    Text.visible w ≠ [] := by
  obtain ⟨c, cs, hw, hc⟩ := h
  simp [Text.visible, hw, hc]

namespace Formatter

open Layout

/-- The output of a source every node of which covers a leaf is empty only if there is neither
a leaf nor a comment. Otherwise it begins with no line feed, never has two blank lines one
below the other, and ends with one line feed, behind a visible character. This holds of both
policies for ties and of every width, and wherever the comments are put. -/
theorem neat_render_layOut (options : Options) {p : Parsed} (h : p.WellShaped) (hleafy : p.Leafy)
    (hleaves : ∀ w ∈ p.leafTexts, Text.Inline w) (hcomments : ∀ c ∈ p.comments, c.Neat) :
    ∃ d out, layOut options p = .ok d ∧ renderDoc options d = .ok out ∧
      (out = "" ∧ p.leafTexts = [] ∧ p.comments = [] ∨ Text.Neat out) := by
  obtain ⟨as, cs, d, hattach, hd, hremarked, hweaves⟩ := exists_layOut options h
  have hfirm : ∀ a ∈ as, Firm a.comment.doc := by
    intro a ha
    refine (hcomments a.comment ?_).firm
    rw [← hremarked.comments]
    exact List.mem_map_of_mem ha
  have hdocument := document_of_attach hattach hd
  rcases ensures_document h hleafy hleaves hattach hfirm d hdocument with hnothing | ⟨hlast, hkeeps⟩
  · obtain ⟨out, q, hrender, hq, he⟩ := exists_settled options hweaves.sound hweaves.shallow
    obtain rfl := hnothing q hq
    have hempty : out = "" := by
      have hprinted : out.toList.reverse = [] := he.eq_of_nil
      simpa using hprinted
    have hremarks : ∀ a ∈ cs, Text.visible a.comment.text ≠ [] := by
      intro a ha
      have hmem : a.comment ∈ (p.comments : Multiset Comment) := by
        rw [← hremarked.map_comment]
        exact Multiset.mem_map_of_mem _ ha
      exact (hcomments a.comment hmem).solid.begins.visible_ne_nil
    obtain ⟨hls, rfl⟩ := (hweaves.stitched [] hq).woven.eq_nil rfl
      (fun w hw => (hleaves w hw).begins.visible_ne_nil) hremarks
    have hnone : ((0 : Multiset Remark).map Remark.comment) = p.comments := hremarked.map_comment
    refine ⟨d, out, hd, by simp [renderDoc, hrender], .inl ⟨hempty, hls, ?_⟩⟩
    simpa using hnone.symm
  · obtain ⟨out, n, hn, hrender, hrun⟩ := exists_paced options hweaves.sound hweaves.shallow hkeeps
    obtain ⟨_, before, hsame, hout, hpadding⟩ := exists_terminated options hweaves.sound hlast
    obtain rfl := Option.some.inj (hrender.symm.trans hsame)
    exact ⟨d, out, hd, by simp [renderDoc, hrender], .inr (Text.neat_of_run hrun hn hout hpadding)⟩

/-- The output of a package declaration with a comment behind it is neat. -/
theorem neat_render_layOut_remarkedPackage :
    Parsed.remarkedPackage.WellShaped ∧ Parsed.remarkedPackage.Leafy ∧
      (∀ w ∈ Parsed.remarkedPackage.leafTexts, Text.Inline w) ∧
      (∀ c ∈ Parsed.remarkedPackage.comments, c.Neat) ∧
      ∃ d out, layOut {} .remarkedPackage = .ok d ∧ renderDoc {} d = .ok out ∧ Text.Neat out := by
  have hshape : Parsed.remarkedPackage.WellShaped := Parsed.wellShaped_package _ _
  have hleafy : Parsed.remarkedPackage.Leafy := by
    intro t ht
    simp only [Parsed.remarkedPackage, Parsed.package, Tree.nodesOfAll, Tree.nodes,
      List.append_nil, List.cons_append, List.nil_append, List.mem_cons, List.not_mem_nil,
      or_false] at ht
    rcases ht with rfl | rfl | rfl | rfl | rfl
    · exact .inl ⟨by decide, by decide, trivial⟩
    · exact .inl ⟨by decide, by decide, trivial⟩
    · exact .inl ⟨by decide, by decide, trivial⟩
    · exact .inl ⟨by decide, by decide, trivial⟩
    · exact .inr ⟨rfl, rfl⟩
  have hleaves : ∀ w ∈ Parsed.remarkedPackage.leafTexts, Text.Inline w := by decide
  have hcomments : ∀ c ∈ Parsed.remarkedPackage.comments, c.Neat := by decide
  obtain ⟨d, out, hd, hrender, hneat⟩ := neat_render_layOut {} hshape hleafy hleaves hcomments
  refine ⟨hshape, hleafy, hleaves, hcomments, d, out, hd, hrender, hneat.resolve_left ?_⟩
  rintro ⟨-, hnone, -⟩
  exact absurd hnone (by decide)

end Formatter

end JavaFormat
