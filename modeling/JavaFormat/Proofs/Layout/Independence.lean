import JavaFormat.Formatter
import JavaFormat.Proofs.Layout.LineFlags
import JavaFormat.Proofs.Layout.Rule
import JavaFormat.Proofs.Syntax.Table

/-!
# Layout depends on outlines and line flags only

Every rule makes the same document of two sites that are the same but for positions and have
the same line flags. By induction on the trees so do two sources, whatever options they are
formatted with (`layOut_eq_of_outline`).
-/

namespace JavaFormat.Layout

/-! ## Groups of switches -/

/-- What reading labels comes to in two sources: the same labels, and statements that are laid
out the same. -/
inductive SameGroup (source source' : Source) :
    Except ShapeError SwitchGroup → Except ShapeError SwitchGroup → Prop
  | error (e : ShapeError) : SameGroup source source' (.error e) (.error e)
  | ok {g g' : SwitchGroup} (hlabels : g.labels = g'.labels)
    (hlast : g.lastLabel.map Piece.outline = g'.lastLabel.map Piece.outline)
    (hstatements : g.statements.map Piece.outline = g'.statements.map Piece.outline)
    (hmembers : members source Gap.none g.statements = members source' Gap.none g'.statements) :
    SameGroup source source' (.ok g) (.ok g')

/-- The same labels are read. -/
theorem sameGroup_switchLabels {source source' : Source} {ps ps' : List Piece}
    (h : List.Forall₂ (SameMember source source') ps ps') (labels : List Doc)
    {last last' : Option Piece} (hlast : last.map Piece.outline = last'.map Piece.outline) :
    SameGroup source source' (switchLabels labels last ps) (switchLabels labels last' ps') := by
  induction h generalizing labels last last' with
  | nil => exact .ok rfl hlast rfl rfl
  | @cons p p' ps ps' hp hps ih =>
    have hmembers := members_eq Gap.placeless_none (.cons hp hps)
    have houtlines := map_outline_of_sameMember (.cons hp hps)
    have hself : (some p).map Piece.outline = (some p').map Piece.outline :=
      congrArg some hp.outline
    have hlabel : ∀ before, SameGroup source source'
        (p.doc >>= fun d => switchLabels (d :: before) (some p) ps)
        (p'.doc >>= fun d => switchLabels (d :: before) (some p') ps') := by
      intro before
      rw [doc_eq_of_outline hp.outline]
      cases p'.doc with
      | error e => exact .error e
      | ok d => exact ih (d :: before) hself
    cases labels with
    | nil =>
      simp only [switchLabels, kind_eq_of_outline hp.outline]
      split
      · exact hlabel []
      · exact .ok rfl hlast houtlines hmembers
    | cons label before =>
      simp only [switchLabels, kind_eq_of_outline hp.outline, isToken_eq_of_outline hp.outline]
      split
      · exact ih _ hlast
      · split
        · exact hlabel (label :: before)
        · exact .ok rfl hlast houtlines hmembers

/-- Groups with the same labels and statements are laid out the same. -/
theorem SameGroup.switchGroup_eq {s s' : Site}
    (h : SameGroup s.source s'.source (switchLabels [] none s.children)
      (switchLabels [] none s'.children))
    (hown : s.comments.hasBreakingTrailing = s'.comments.hasBreakingTrailing) :
    s.switchGroup = s'.switchGroup := by
  rw [Site.switchGroup, Site.switchGroup]
  generalize switchLabels [] none s.children = result at h ⊢
  generalize switchLabels [] none s'.children = result' at h ⊢
  cases h with
  | error e => rfl
  | @ok g g' hlabels hlast hstatements hmembers =>
    obtain ⟨labels, last, statements⟩ := g
    obtain ⟨labels', last', statements'⟩ := g'
    obtain rfl : labels = labels' := hlabels
    rcases statements with _ | ⟨statement, _ | ⟨further, statements⟩⟩
    · obtain rfl := List.map_eq_nil_iff.mp hstatements.symm
      rfl
    · obtain ⟨statement', rfl, hp⟩ := List.map_eq_singleton_iff.mp hstatements.symm
      cases rel_of_map_eq hlast with
      | none =>
        simp only [bind, Except.bind, kind_eq_of_outline hp.symm, doc_eq_of_outline hp.symm,
          hown, hmembers]
      | @some label label' hlabel =>
        have hbreaks : label.hasBreakingTrailing = label'.hasBreakingTrailing := by
          rw [← label.hasBreakingTrailing_outline, hlabel, label'.hasBreakingTrailing_outline]
        simp only [bind, Except.bind, kind_eq_of_outline hp.symm, doc_eq_of_outline hp.symm,
          hbreaks, hmembers]
    · obtain ⟨statement', rest, rfl, -, hrest⟩ := List.map_eq_cons_iff.mp hstatements.symm
      obtain ⟨further', statements', rfl, -, -⟩ := List.map_eq_cons_iff.mp hrest
      simp only [bind, Except.bind, hmembers]

/-! ## Rules -/

/-- A statement behind a header is the same but for positions. -/
theorem headedBody_eq {header header' : List Piece} {body body' : Piece}
    (hheader : header.map Piece.outline = header'.map Piece.outline)
    (hbody : body.outline = body'.outline) : headedBody header body = headedBody header' body' := by
  rw [← headedBody_outline, hheader, hbody, headedBody_outline]

namespace Site

variable {s s' : Site} (h : s.outline = s'.outline)

include h

/-- The nodes of the sites have the same kind. -/
theorem kind_eq : s.node.kind = s'.node.kind := by
  rw [← Tree.kind_outline, ← node_outline, h, node_outline, Tree.kind_outline]

/-- The nodes of the sites have the same text. -/
theorem text_eq : s.node.text = s'.node.text := by
  rw [← Tree.text_outline, ← node_outline, h, node_outline, Tree.text_outline]

/-- The children of the sites are the same but for positions. -/
theorem children_eq : s.children.map Piece.outline = s'.children.map Piece.outline :=
  congrArg Site.children h

/-- The comments of the sites are the same but for positions. -/
theorem comments_eq : s.comments.outline s.node.kind = s'.comments.outline s'.node.kind :=
  congrArg Site.comments h

/-- The same block is made of the comments inside. -/
theorem danglingBlock?_eq : s.comments.danglingBlock? = s'.comments.danglingBlock? := by
  rw [← s.comments.danglingBlock?_outline s.node.kind, comments_eq h,
    NodeComments.danglingBlock?_outline]

/-- A rule without positions makes the same document. -/
theorem eq_of_outline {rule : Site → Except ShapeError Doc} (hrule : ∀ s, rule s.outline = rule s) :
    rule s = rule s' := by
  rw [← hrule, h, hrule]

/-- The same delimited list is made of the sites. -/
theorem delimited_eq (style : ListStyle) : s.delimited style = s'.delimited style := by
  rw [← delimited_outline, h, delimited_outline]

/-- The same sequence is made of the children if they are on the same lines. -/
theorem sequence_eq {spacing : Spacing}
    (hline : SameLine (some s.node.kind) spacing s.children s'.children) :
    s.sequence spacing = s'.sequence spacing := by
  rw [Site.sequence, Site.sequence, ← kind_eq h]
  exact hline.sequence_eq

/-- The children are printed tight alike. -/
theorem tight_eq : tight s.children = tight s'.children := by
  rw [← tight_outline, children_eq h, tight_outline]

/-- The children between the braces are the same but for positions. -/
theorem unbraced_eq : s.unbraced.map Piece.outline = s'.unbraced.map Piece.outline := by
  have hfilter := congrArg (List.filter fun p : Piece =>
    !(p.node.text? == some "\x7b" || p.node.text? == some "\x7d")) (children_eq h)
  simpa [Site.unbraced, List.filter_map, Function.comp_def] using hfilter

/-- The same braces are put around nothing. -/
theorem braces_eq : braces s.comments = braces s'.comments := by
  funext contents
  rw [braces, braces, danglingBlock?_eq h]

/-- The same body is made of the sites if their members are printed alike. -/
theorem body_eq {gap : Gap}
    (hmembers : members? s.source gap s.unbraced = members? s'.source gap s'.unbraced) :
    s.body gap = s'.body gap := by
  rw [Site.body, Site.body, hmembers, braces_eq h]

/-- The same compilation unit is made of the sites if their members are printed alike. -/
theorem program_eq (hmembers : members? s.source Gap.ofProgram s.children =
    members? s'.source Gap.ofProgram s'.children) : s.program = s'.program := by
  rw [Site.program, Site.program, hmembers, danglingBlock?_eq h]

/-- The same body of an enum is made of the sites if their constants are printed alike. -/
theorem enumBody_eq (hconstants : enumConstants s.source none s.unbraced =
    enumConstants s'.source none s'.unbraced) : s.enumBody = s'.enumBody := by
  have hfound : (s.unbraced.reverse.find? (·.kind == .enumBodyDeclarations)).map Piece.outline =
      (s'.unbraced.reverse.find? (·.kind == .enumBodyDeclarations)).map Piece.outline := by
    have hmap := congrArg (fun ps => ps.reverse.find? (·.kind == .enumBodyDeclarations))
      (unbraced_eq h)
    simpa [← List.map_reverse, List.find?_map, Function.comp_def] using hmap
  rw [Site.enumBody, Site.enumBody, hconstants, braces_eq h]
  generalize s.unbraced.reverse.find? _ = found at hfound ⊢
  generalize s'.unbraced.reverse.find? _ = found' at hfound ⊢
  cases rel_of_map_eq hfound with
  | none => rfl
  | some hp => simp only [doc_eq_of_outline hp]

/-- The same declarations of an enum are made of the sites if these are printed alike. -/
theorem enumDeclarations_eq (hmembers : members s.source Gap.ofMembers (s.children.drop 1) =
    members s'.source Gap.ofMembers (s'.children.drop 1)) :
    s.enumDeclarations = s'.enumDeclarations := by
  have hrest : (s.children.drop 1).map Piece.outline = (s'.children.drop 1).map Piece.outline := by
    rw [List.map_drop, children_eq h, List.map_drop]
  rw [Site.enumDeclarations, Site.enumDeclarations]
  generalize s.children.drop 1 = items at hrest hmembers ⊢
  generalize s'.children.drop 1 = items' at hrest hmembers ⊢
  cases items with
  | nil =>
    rw [List.map_eq_nil_iff.mp hrest.symm]
  | cons p ps =>
    obtain ⟨p', ps', rfl, -, -⟩ := List.map_eq_cons_iff.mp hrest.symm
    simp only [hmembers]

/-- The same type is declared by the sites if their children are on the same lines. -/
theorem typeDeclaration_eq
    (hline : SameLine (some s.node.kind) .standard s.children s'.children) :
    s.typeDeclaration = s'.typeDeclaration := by
  rw [Site.typeDeclaration, Site.typeDeclaration, ← kind_eq h]
  have hsorting := sameSorting_typeParts hline
  generalize typeParts s.node.kind s.children = result at hsorting ⊢
  generalize typeParts s.node.kind s'.children = result' at hsorting ⊢
  cases hsorting with
  | error e => rfl
  | ok hparts =>
    have hheads : SameLine (some s.node.kind) .ofTypeHead _ _ :=
      .of_outline hparts.head hparts.unmodified
    have hhead := hheads.sequence_eq
    simp only [bind, Except.bind, hhead, hparts.modifiers, hparts.clauses, hparts.body]

/-- The same loop is made of the sites if its head is on the same lines. -/
theorem loop_eq
    (hline : SameLine (some s.node.kind) .standard s.children.dropLast s'.children.dropLast) :
    s.loop = s'.loop := by
  have hheader : s.children.dropLast.map Piece.outline =
      s'.children.dropLast.map Piece.outline := by
    rw [List.map_dropLast, children_eq h, List.map_dropLast]
  have hlast : s.children.getLast?.map Piece.outline = s'.children.getLast?.map Piece.outline := by
    rw [← List.getLast?_map, children_eq h, List.getLast?_map]
  simp only [Site.loop, ← kind_eq h, hline.sequence_eq]
  generalize s.children.getLast? = last at hlast ⊢
  generalize s'.children.getLast? = last' at hlast ⊢
  cases rel_of_map_eq hlast with
  | none => rfl
  | some hbody => simp only [headedBody_eq hheader hbody]

/-- The same loop is made of the sites if what follows its body is on the same lines. -/
theorem doLoop_eq
    (hline : SameLine (some s.node.kind) .standard (s.children.drop 2) (s'.children.drop 2)) :
    s.doLoop = s'.doLoop := by
  have houtlines := children_eq h
  rw [Site.doLoop, Site.doLoop, ← kind_eq h]
  generalize s.children = ps at hline houtlines ⊢
  generalize s'.children = ps' at hline houtlines ⊢
  rcases ps with _ | ⟨keyword, _ | ⟨body, tail⟩⟩
  · rw [List.map_eq_nil_iff.mp houtlines.symm]
  · obtain ⟨_, rfl, -⟩ := List.map_eq_singleton_iff.mp houtlines.symm
    rfl
  · obtain ⟨keyword', rest, rfl, hkeyword, hrest⟩ := List.map_eq_cons_iff.mp houtlines.symm
    obtain ⟨body', tail', rfl, hbody, -⟩ := List.map_eq_cons_iff.mp hrest
    have hstatement : headedBody [keyword] body = headedBody [keyword'] body' :=
      headedBody_eq (congrArg (fun p => [p]) hkeyword.symm) hbody.symm
    have hbefore : beforeKeyword body = beforeKeyword body' := by
      rw [← beforeKeyword_outline, ← hbody, beforeKeyword_outline]
    have hsequence : Layout.sequence s.node.kind .standard tail =
        Layout.sequence s.node.kind .standard tail' := hline.sequence_eq
    simp only [doc_eq_of_outline hkeyword.symm, hstatement, hbefore, hsequence]

/-- The same group of a switch is made of the sites if it is split alike. -/
theorem switchGroup_eq (hgroup : SameGroup s.source s'.source (switchLabels [] none s.children)
    (switchLabels [] none s'.children)) : s.switchGroup = s'.switchGroup := by
  refine hgroup.switchGroup_eq ?_
  rw [← s.comments.hasBreakingTrailing_outline s.node.kind, comments_eq h,
    NodeComments.hasBreakingTrailing_outline]

/-- The same piece is made of the sites but for positions if the same document is. -/
theorem piece_eq (hbare : s.bare = s'.bare) : s.piece.outline = s'.piece.outline := by
  have hoperators : operatorChain s.comments s.children =
      operatorChain s'.comments s'.children := by
    rw [← operatorChain_outline s.node.kind, comments_eq h, children_eq h, operatorChain_outline]
  have hcalls : callChain? s.comments s.children = callChain? s'.comments s'.children := by
    rw [← callChain?_outline s.node.kind, comments_eq h, children_eq h, callChain?_outline]
  have hnode : s.node.outline = s'.node.outline := congrArg Site.node h
  have hkind : s.node.kind = s'.node.kind := kind_eq h
  have hcomments := comments_eq h
  rw [hkind] at hcomments
  simp only [Site.piece, Piece.outline, Piece.kind, hnode, hcomments, hbare, hkind, hoperators,
    hcalls]

end Site

/-- Sites that are the same but for positions, with the same flags. -/
structure Site.Same (s s' : Site) : Prop where
  outline : s.outline = s'.outline
  members : List.Forall₂ (SameMember s.source s'.source) s.children s'.children
  line : ∀ spacing, SameLine (some s.node.kind) spacing s.children s'.children
  modifiers : s.node.kind = .modifiers → s.modifiers = s'.modifiers

namespace Site.Same

variable {s s' : Site} (h : s.Same s')

include h

/-- The children between the braces are the same members. -/
theorem unbraced : List.Forall₂ (SameMember s.source s'.source) s.unbraced s'.unbraced := by
  refine List.rel_filter ?_ h.members
  intro p p' hp
  have htext : p.node.text? = p'.node.text? := by
    rw [← Tree.text?_outline, node_eq_of_outline hp.outline, Tree.text?_outline]
  simp only [htext]

/-- The same body is made of the sites. -/
theorem body_eq {gap : Gap} (hgap : gap.Placeless) : s.body gap = s'.body gap :=
  Site.body_eq h.outline (members?_eq hgap h.unbraced)

/-- The same declarations of an enum are made of the sites. -/
theorem enumDeclarations_eq : s.enumDeclarations = s'.enumDeclarations :=
  Site.enumDeclarations_eq h.outline
    (members_eq Gap.placeless_ofMembers (List.forall₂_drop 1 h.members))

/-- The same document is made of the sites. The kinds without a rule of their own are printed child
by child, or by their text. -/
theorem bare_eq : s.bare = s'.bare := by
  have houtline := h.outline
  have hsequence := fun spacing => Site.sequence_eq houtline (h.line spacing)
  have htight := Site.tight_eq houtline
  have hmodifiers := h.modifiers
  have hkind := Site.kind_eq houtline
  unfold Site.bare
  cases hk : s.node.kind <;> rw [hk] at hmodifiers hkind <;> rw [← hkind]
  case modifiers => exact hmodifiers rfl
  case dimensions => exact Site.eq_of_outline houtline dimensions_outline
  case program =>
    exact Site.program_eq houtline (members?_eq Gap.placeless_ofProgram h.members)
  case classDeclaration | interfaceDeclaration | enumDeclaration | recordDeclaration |
      annotationTypeDeclaration => exact Site.typeDeclaration_eq houtline (h.line _)
  case classBody | interfaceBody | annotationTypeBody => exact h.body_eq Gap.placeless_ofMembers
  case block | constructorBody | switchBlock | moduleBody => exact h.body_eq Gap.placeless_none
  case enumBody => exact Site.enumBody_eq houtline (enumConstants_eq h.unbraced none)
  case enumBodyDeclarations => exact h.enumDeclarations_eq
  case variableDeclarator => exact Site.eq_of_outline houtline variableDeclarator_outline
  case formalParameters | annotationArgumentList | recordPatternBody | typeParameters |
      elementValueArrayInitializer | resourceSpecification => exact Site.delimited_eq houtline _
  case typeArguments => exact Site.eq_of_outline houtline typeArguments_outline
  case arrayInitializer => exact Site.eq_of_outline houtline arrayInitializer_outline
  case argumentList => exact Site.eq_of_outline houtline arguments_outline
  case methodInvocation => exact Site.eq_of_outline houtline methodInvocation_outline
  case assignmentExpression => exact Site.eq_of_outline houtline assignmentExpression_outline
  case binaryExpression => exact Site.eq_of_outline houtline binary_outline
  case ternaryExpression => exact Site.eq_of_outline houtline ternary_outline
  case unaryExpression => exact Site.eq_of_outline houtline unary_outline
  case parenthesizedExpression => exact Site.eq_of_outline houtline parenthesized_outline
  case ifStatement => exact Site.eq_of_outline houtline ifStatement_outline
  case whileStatement | forStatement | enhancedForStatement =>
    exact Site.loop_eq houtline (h.line _).dropLast
  case doStatement => exact Site.doLoop_eq houtline ((h.line _).drop 2)
  case switchBlockStatementGroup =>
    exact Site.switchGroup_eq houtline (sameGroup_switchLabels h.members [] rfl)
  all_goals
    first
    | exact hsequence _
    | exact htight
    | simp only [Site.text_eq houtline]

/-- The same piece is made of the sites but for positions. -/
theorem piece_eq : s.piece.outline = s'.piece.outline := Site.piece_eq h.outline h.bare_eq

end Site.Same

/-! ## Trees -/

/-- Nodes of two scenes with the same comments but for their places, and with the same line
flags. -/
structure SameNodes (scene scene' : Scene) (ts ts' : List Tree) : Prop where
  comments : ts.map (fun t => (scene.attachments.at t.index).outline t.kind) =
    ts'.map fun t => (scene'.attachments.at t.index).outline t.kind
  flags : ts.map scene.lineFlags = ts'.map scene'.lineFlags

section Trees

variable {scene scene' : Scene}

/-- The first of the nodes and the rest. -/
theorem SameNodes.of_append {ts ts' us us' : List Tree}
    (h : SameNodes scene scene' (ts ++ us) (ts' ++ us')) (hlength : ts.length = ts'.length) :
    SameNodes scene scene' ts ts' ∧ SameNodes scene scene' us us' := by
  have hcomments := h.comments
  have hflags := h.flags
  rw [List.map_append, List.map_append] at hcomments hflags
  obtain ⟨hcomments, hcomments'⟩ := List.append_inj hcomments (by simpa using hlength)
  obtain ⟨hflags, hflags'⟩ := List.append_inj hflags (by simpa using hlength)
  exact ⟨⟨hcomments, hflags⟩, hcomments', hflags'⟩

/-- The root of a tree is one of its nodes. -/
theorem SameNodes.root {t t' : Tree} (h : SameNodes scene scene' t.nodes t'.nodes)
    (ht : t.outline = t'.outline) : SameNodes scene scene' [t] [t'] := by
  have hlength := Tree.length_nodes_eq_of_outline ht
  obtain ⟨below, hbelow⟩ := List.getLast?_eq_some_iff.mp t.getLast?_nodes
  obtain ⟨below', hbelow'⟩ := List.getLast?_eq_some_iff.mp t'.getLast?_nodes
  rw [hbelow, hbelow'] at h hlength
  exact (h.of_append (by simpa using hlength)).2

/-- Whether there is a blank line above a node does not depend on the node above. -/
theorem hasBlankLineBefore_layOut (scene : Scene) (parent : Option NodeKind) (t : Tree) :
    hasBlankLineBefore scene.source (layOut scene parent t) = (scene.lineFlags t).blankLine := by
  simp only [Scene.lineFlags, hasBlankLineBefore, comments_layOut, node_layOut]

/-- The children of the same kind of node are the same children if they are laid out the same. -/
theorem SameNodes.sameChild {t t' : Tree} (h : SameNodes scene scene' [t] [t'])
    {parent : Option NodeKind}
    (hlaid : (layOut scene parent t).outline = (layOut scene' parent t').outline) :
    SameChild scene.source scene'.source (layOut scene parent t) (layOut scene' parent t') := by
  have hflags := (List.cons.inj h.flags).1
  have hkind : t.kind = t'.kind := by
    have hkinds := kind_eq_of_outline hlaid
    rwa [Piece.kind, Piece.kind, node_layOut, node_layOut] at hkinds
  refine ⟨⟨hlaid, ?_⟩, fun hk => ?_⟩
  · rw [hasBlankLineBefore_layOut, hasBlankLineBefore_layOut, hflags]
  · have hk : t.kind = .modifiers := by rwa [Piece.kind, node_layOut] at hk
    have hremarks := congrArg LineFlags.remarks hflags
    rw [Scene.lineFlags, Scene.lineFlags] at hremarks
    simp only [← hkind, hk, if_true] at hremarks
    simpa only [comments_layOut, node_layOut] using hremarks

/-- Nodes that are the same, with children that are laid out the same, have the same site. -/
theorem SameNodes.same_site {t t' : Tree} (h : SameNodes scene scene' [t] [t'])
    (ht : t.outline = t'.outline) (hroots : scene.roots = scene'.roots)
    (parent : Option NodeKind) {ps ps' : List Piece}
    (hnodes : ps.map Piece.node = t.children) (hnodes' : ps'.map Piece.node = t'.children)
    (hps : List.Forall₂ (SameChild scene.source scene'.source) ps ps') :
    (scene.site parent t ps).Same (scene'.site parent t' ps') := by
  have hcomments := (List.cons.inj h.comments).1
  have hflags := (List.cons.inj h.flags).1
  have hmembers : List.Forall₂ (SameMember scene.source scene'.source) ps ps' :=
    hps.imp fun _ _ hp => hp.toSameMember
  have houtlines := map_outline_of_sameMember hmembers
  have hkind : t.kind = t'.kind := by rw [← Tree.kind_outline, ht, Tree.kind_outline]
  refine ⟨?_, hmembers, ?_, fun hk => ?_⟩
  · simp only [Site.outline, Scene.site, hroots, ht, hcomments, houtlines]
  · have hlists : neighbours listEndsLine (ps.map Piece.node) =
        neighbours listEndsLine (ps'.map Piece.node) := by
      rw [hnodes, hnodes']
      exact congrArg LineFlags.lists hflags
    exact fun spacing => sameLine_of_sameChild hps hlists spacing
  · have hk : t.kind = .modifiers := hk
    have hannotations := congrArg LineFlags.annotations hflags
    have hremarks := congrArg LineFlags.remarks hflags
    simp only [Scene.lineFlags, ← hkind, hk, if_true, ← hnodes, ← hnodes']
      at hannotations hremarks
    have hdangling := congrArg (fun c => c.dangling.map (·.comment)) hcomments
    simp only [NodeComments.map_comment_dangling_outline] at hdangling
    have hpending := forall₂_sameRemark hdangling hremarks
    simp only [Site.modifiers, Scene.site, modifierParts_eq houtlines hannotations hpending]

mutual

/-- Trees that are the same at every node are laid out the same. -/
theorem outline_layOut_eq (hroots : scene.roots = scene'.roots) (parent : Option NodeKind) :
    ∀ {t t' : Tree}, t.outline = t'.outline → SameNodes scene scene' t.nodes t'.nodes →
      (layOut scene parent t).outline = (layOut scene' parent t').outline
  | .leaf info written, t', ht, h => by
    cases t' with
    | branch => cases ht
    | leaf info' written' =>
      rw [layOut, layOut]
      exact ((h.root ht).same_site ht hroots parent rfl rfl .nil).piece_eq
  | .branch info ts, t', ht, h => by
    cases t' with
    | leaf => cases ht
    | branch info' ts' =>
      have hkind : info.kind = info'.kind := by
        have hkinds := congrArg Tree.kind ht
        rwa [Tree.kind_outline, Tree.kind_outline] at hkinds
      have hts : Tree.outlineOfAll ts = Tree.outlineOfAll ts' := (Tree.branch.inj ht).2
      have hlength := Tree.length_nodes_eq_of_outline ht
      rw [Tree.nodes, Tree.nodes] at hlength
      have hbelow : SameNodes scene scene' (Tree.nodesOfAll ts) (Tree.nodesOfAll ts') := by
        rw [Tree.nodes, Tree.nodes] at h
        exact (h.of_append (by simpa using hlength)).1
      rw [layOut, layOut, ← hkind]
      refine ((h.root ht).same_site ht hroots parent ?_ ?_
        (sameChild_layOutAll hroots (some info.kind) hts hbelow)).piece_eq
      · exact map_node_layOutAll scene (some info.kind) ts
      · exact map_node_layOutAll scene' (some info.kind) ts'

/-- The pieces of nodes that are the same but for positions are the same children. -/
theorem sameChild_layOutAll (hroots : scene.roots = scene'.roots) (parent : Option NodeKind) :
    ∀ {ts ts' : List Tree}, Tree.outlineOfAll ts = Tree.outlineOfAll ts' →
      SameNodes scene scene' (Tree.nodesOfAll ts) (Tree.nodesOfAll ts') →
      List.Forall₂ (SameChild scene.source scene'.source) (layOutAll scene parent ts)
        (layOutAll scene' parent ts')
  | [], ts', hts, _ => by
    cases ts' with
    | nil => exact .nil
    | cons => cases hts
  | t :: ts, ts', hts, h => by
    cases ts' with
    | nil => cases hts
    | cons t' ts' =>
      obtain ⟨ht, hts⟩ := List.cons.inj hts
      rw [Tree.nodesOfAll, Tree.nodesOfAll] at h
      obtain ⟨hfirst, hrest⟩ := h.of_append (Tree.length_nodes_eq_of_outline ht)
      rw [layOutAll, layOutAll]
      exact .cons ((hfirst.root ht).sameChild (outline_layOut_eq hroots parent ht hfirst))
        (sameChild_layOutAll hroots parent hts hrest)

end

end Trees

/-! ## Documents -/

/-- The gap between the roots of a fragment depends on no position. -/
theorem placeless_fragmentGap (parent : Option NodeKind) : (fragmentGap parent).Placeless := by
  rw [fragmentGap]
  split
  · exact Gap.placeless_ofMembers
  · exact Gap.placeless_none

/-- The parts of a fragment are put together the same. -/
theorem fragmentDoc_eq {p p' : Parsed} {ps ps' : List Piece}
    (hparent : p.rootParent = p'.rootParent)
    (h : List.Forall₂ (SameMember p.source p'.source) ps ps') :
    fragmentDoc p ps = fragmentDoc p' ps' := by
  rw [fragmentDoc, fragmentDoc, hparent, members_eq (placeless_fragmentGap _) h]

/-- The document of a source is made of the outlines of its nodes, of their comments and of what
the line flags say of their positions; nor do the options matter. -/
theorem layOut_eq_of_outline {p p' : Parsed} {as as' : Attachments}
    (hroots : p.roots.map Tree.outline = p'.roots.map Tree.outline)
    (hparent : p.rootParent = p'.rootParent)
    (hnodes : SameNodes (Scene.of p as) (Scene.of p' as') (Tree.nodesOfAll p.roots)
      (Tree.nodesOfAll p'.roots)) :
    document p as = document p' as' ∧
      ∀ options options', p.attach options.tieBreak = .ok as →
        p'.attach options'.tieBreak = .ok as' →
          Formatter.layOut options p = Formatter.layOut options' p' := by
  have hindices : (Scene.of p as).roots = (Scene.of p' as').roots := by
    have hmap := congrArg (List.map Tree.index) hroots
    simpa [Scene.of, Function.comp_def] using hmap
  rw [← Tree.outlineOfAll_eq_map, ← Tree.outlineOfAll_eq_map] at hroots
  have hpieces := sameChild_layOutAll hindices p.rootParent hroots hnodes
  have hdocument : document p as = document p' as' := by
    rw [document, document, ← hparent]
    generalize layOutAll (Scene.of p as) p.rootParent p.roots = ps at hpieces ⊢
    generalize layOutAll (Scene.of p' as') p.rootParent p'.roots = ps' at hpieces ⊢
    have hmembers : List.Forall₂ (SameMember p.source p'.source) ps ps' :=
      hpieces.imp fun _ _ h => h.toSameMember
    have hfragment := fragmentDoc_eq hparent hmembers
    cases hmembers with
    | nil => rfl
    | cons h hrest =>
      cases hrest with
      | nil => simp only [kind_eq_of_outline h.outline, doc_eq_of_outline h.outline, hfragment]
      | cons _ _ => exact hfragment
  refine ⟨hdocument, fun options options' hattach hattach' => ?_⟩
  simp only [Formatter.layOut, hattach, hattach', bind, Except.bind, hdocument]

/-- A class with an annotation and a comment behind it, the first byte of each given. -/
def annotatedClass (source : Source) (start keyword remark : Nat) : Parsed :=
  let marker := .branch ⟨2, .annotationMarker, none, source.span start (start + 2)⟩ [
    .leaf ⟨0, .token, none, source.span start (start + 1)⟩ "@",
    .leaf ⟨1, .identifier, some "name", source.span (start + 1) (start + 2)⟩ "A"]
  let body := .branch ⟨8, .classBody, some "body", source.span (keyword + 8) (keyword + 10)⟩ [
    .leaf ⟨6, .token, none, source.span (keyword + 8) (keyword + 9)⟩ "\x7b",
    .leaf ⟨7, .token, none, source.span (keyword + 9) (keyword + 10)⟩ "\x7d"]
  let declaration := .branch ⟨9, .classDeclaration, none, source.span start (keyword + 10)⟩ [
    .branch ⟨3, .modifiers, none, marker.span⟩ [marker],
    .leaf ⟨4, .token, none, source.span keyword (keyword + 5)⟩ "class",
    .leaf ⟨5, .identifier, some "name", source.span (keyword + 6) (keyword + 7)⟩ "B", body]
  let whole := .branch ⟨10, .program, none, declaration.span⟩ [declaration]
  ⟨whole, [whole], none, [⟨"// b", true, source.span remark (remark + 4)⟩], source⟩

/-- The document is the same if the lines of the class are indented, the comment is further away
and the options are others. -/
theorem layOut_eq_of_outline_annotatedClass :
    let p := annotatedClass (.ofText "@A\nclass B \x7b\x7d // b") 0 3 14
    let p' := annotatedClass (.ofText "\t@A\n        class B \x7b\x7d   // b") 1 12 25
    let options' : Options := { printWidth := 40, tieBreak := .leading }
    (Formatter.layOut {} p).isOk = true ∧ Formatter.layOut {} p = Formatter.layOut options' p' := by
  intro p p' options'
  have hattach : p.attach ({} : Options).tieBreak =
      .ok [⟨⟨"// b", true, p.source.span 14 18⟩, .trailing, 9, 0, 0, false, true⟩] := by decide
  have hattach' : p'.attach options'.tieBreak =
      .ok [⟨⟨"// b", true, p'.source.span 25 29⟩, .trailing, 9, 0, 0, false, true⟩] := by decide
  generalize has : [_] = as at hattach
  generalize has' : [_] = as' at hattach'
  have hroots : p.roots.map Tree.outline = p'.roots.map Tree.outline := by
    simp only [p, p', annotatedClass, List.map_cons, List.map_nil, Tree.outline,
      Tree.outlineOfAll, NodeInfo.outline]
  have hnodes : SameNodes (Scene.of p as) (Scene.of p' as') (Tree.nodesOfAll p.roots)
      (Tree.nodesOfAll p'.roots) := by
    subst has has'
    constructor
    · decide
    · decide +kernel
  refine ⟨by decide +kernel, ?_⟩
  exact (layOut_eq_of_outline hroots rfl hnodes).2 {} options' hattach hattach'

end JavaFormat.Layout
