import JavaFormat.Layout.Rule
import JavaFormat.Proofs.Layout.Calls
import JavaFormat.Proofs.Layout.ControlFlow
import JavaFormat.Proofs.Layout.Modifiers
import JavaFormat.Proofs.Layout.Operators
import JavaFormat.Proofs.Layout.TypeDeclaration

/-!
# Trees are laid out completely

Every rule prints the leaves below its node and the comments put to the nodes below
it, and a piece adds those around the node. Hence the piece of a tree is complete, by
induction on the tree, as long as comments are put only where they are printed.
-/

namespace JavaFormat.Layout

open Doc

variable {share : Tree → Multiset Remark} {s : Site}

/-! ## Leaves -/

/-- A node that is printed as it was written does not print the comments inside it. -/
theorem printsDangling_of_isVerbatim {k : NodeKind} (h : k.isVerbatim = true) :
    printsDangling k = false := by
  unfold NodeKind.isVerbatim at h
  split at h <;> first | rfl | cases h

/-- A verbatim node is printed line by line. -/
theorem Site.bare_of_isVerbatim (h : s.node.kind.isVerbatim = true) :
    s.bare = .ok (ofLines s.node.text) := by
  unfold Site.bare
  generalize s.node.kind = k at h
  unfold NodeKind.isVerbatim at h
  split at h <;> first | rfl | cases h

/-- A leaf is a text of its own or is printed line by line. -/
theorem Site.bare_leaf {info : NodeInfo} {text : String} (hn : s.node = .leaf info text)
    (hr : s.node.Regular) : s.bare = .ok (.text text) ∨ s.bare = .ok (ofLines text) := by
  have hwritten : s.node.text = text := by
    rw [hn]
    rfl
  have hkind : s.node.kind = .token ∨ s.node.kind.isVerbatim = true := by
    rw [hn] at hr ⊢
    exact hr
  rw [← hwritten]
  rcases hkind with hk | hk
  · refine .inl ?_
    unfold Site.bare
    rw [hk]
    rfl
  · exact .inr (Site.bare_of_isVerbatim hk)

/-- A leaf is printed as it is written. -/
theorem Site.Ready.yields_leaf (h : s.Ready share) {info : NodeInfo} {text : String}
    (hn : s.node = .leaf info text) (hr : s.node.Regular) :
    Yields s.bare s.node.leafTexts
      (printedInside s.node s.comments + shares share s.children) := by
  have hchildren : s.children = [] := by
    have hnodes := h.nodes
    rw [hn] at hnodes
    exact List.map_eq_nil_iff.mp hnodes
  have hleaf : s.node.leafTexts = [text] := by
    rw [hn]
    rfl
  have hsilent : printedInside s.node s.comments = 0 := by
    have hkind : s.node.kind = .token ∨ s.node.kind.isVerbatim = true := by
      rw [hn] at hr ⊢
      exact hr
    rcases hkind with hk | hk
    · rw [printedInside, hk]
      rfl
    · rw [printedInside, printsDangling_of_isVerbatim hk]
      rfl
  rw [hchildren, shares_nil, add_zero, hleaf, hsilent]
  rcases Site.bare_leaf hn hr with hbare | hbare
  · rw [hbare]
    exact .pure (weaves_text text)
  · rw [hbare]
    exact .pure (weaves_ofLines text)

/-! ## Branches -/

/-- The rules that print the comments inside their node. -/
theorem Site.Ready.yields_bare_inside (h : s.Ready share)
    (ha : Shape.Allowed s.node.kind s.node.children)
    (hp : printsDangling s.node.kind = true) :
    Yields s.bare (texts s.children)
      (s.comments.inside s.node + shares share s.children) := by
  unfold Site.bare NodeComments.inside
  cases hk : s.node.kind <;> rw [hk] at ha hp
  case program => exact h.yields_program
  case classBody | interfaceBody | annotationTypeBody => exact h.yields_body ha Gap.ofMembers
  case block | constructorBody | switchBlock | moduleBody => exact h.yields_body ha Gap.none
  case enumBody => exact h.yields_enumBody ha
  case modifiers => exact h.yields_modifiers ha
  case formalParameters | annotationArgumentList | recordPatternBody =>
    exact h.yields_delimited .parenthesized ha
  case typeParameters => exact h.yields_delimited { opening := "<", closing := ">" } ha
  case elementValueArrayInitializer => exact h.yields_delimited .braced ha
  case arrayInitializer =>
    exact h.yields_delimited { ListStyle.braced with filled := s.named.all (·.kind.isLiteral) } ha
  case resourceSpecification =>
    exact h.yields_delimited { ListStyle.parenthesized with separator := ";" } ha
  case argumentList => exact h.yields_arguments ha
  case typeArguments => exact h.yields_typeArguments ha
  all_goals cases hp

/-- The rules that leave the comments inside their node to its piece. The kinds without a rule of
their own are printed child by child, but for leaves. -/
theorem Site.Ready.yields_bare_outside (h : s.Ready share)
    (ha : Shape.Allowed s.node.kind s.node.children) (ht : s.node.kind ≠ .token)
    (hv : s.node.kind.isVerbatim = false) (hp : printsDangling s.node.kind = false) :
    Yields s.bare (texts s.children) (shares share s.children) := by
  have hsequence : ∀ spacing, Yields (s.sequence spacing) (texts s.children)
      (shares share s.children) := fun spacing => yields_sequence s.node.kind spacing h.complete
  have htight := yields_tight h.complete
  unfold Site.bare
  cases hk : s.node.kind <;> rw [hk] at ha ht hv hp
  case dimensions => exact h.yields_dimensions
  case classDeclaration | interfaceDeclaration | enumDeclaration | recordDeclaration |
      annotationTypeDeclaration => exact h.yields_typeDeclaration ha
  case enumBodyDeclarations => exact h.yields_enumDeclarations ha
  case variableDeclarator => exact h.yields_variableDeclarator ha
  case methodInvocation => exact h.yields_methodInvocation
  case assignmentExpression => exact h.yields_assignment ha
  case binaryExpression => exact h.yields_binary ha
  case ternaryExpression => exact h.yields_ternary ha
  case unaryExpression => exact h.yields_unary ha
  case parenthesizedExpression => exact h.yields_parenthesized ha
  case ifStatement => exact h.yields_ifStatement ha
  case whileStatement | forStatement | enhancedForStatement => exact h.yields_loop ha
  case doStatement => exact h.yields_doLoop ha
  case switchBlockStatementGroup => exact h.yields_switchGroup
  all_goals
    first
    | exact hsequence _
    | exact htight
    | exact absurd rfl ht
    | exact absurd hv (by decide)
    | exact absurd hp (by decide)

/-- The leaves of a branch are those of its pieces. -/
theorem Site.Ready.leafTexts_eq (h : s.Ready share) (hr : s.node.Regular)
    (ht : s.node.kind ≠ .token) (hv : s.node.kind.isVerbatim = false) :
    s.node.leafTexts = texts s.children := by
  rw [texts_eq_flatMap, h.nodes]
  exact hr.leafTexts_eq ht hv

/-- Every rule prints the leaves and comments below its node, and the comments inside
it unless the piece does. -/
theorem Site.Ready.yields_bare (h : s.Ready share) (hr : s.node.Regular) :
    Yields s.bare s.node.leafTexts
      (printedInside s.node s.comments + shares share s.children) := by
  cases hn : s.node with
  | leaf info text =>
    rw [← hn]
    exact h.yields_leaf hn hr
  | branch info ts =>
    obtain ⟨ht, hv, ha⟩ : s.node.kind ≠ .token ∧ s.node.kind.isVerbatim = false ∧
        Shape.Allowed s.node.kind s.node.children := by
      rw [hn] at hr ⊢
      exact hr
    rw [← hn, h.leafTexts_eq hr ht hv]
    cases hp : printsDangling s.node.kind with
    | true =>
      rw [printedInside, if_pos hp]
      exact h.yields_bare_inside ha hp
    | false =>
      rw [printedInside, if_neg (by simp [hp]), zero_add]
      exact h.yields_bare_outside ha ht hv hp

/-! ## Pieces -/

/-- A node that has a named child has no comments inside it. -/
theorem Site.Ready.all_eq (h : s.Ready share) (hn : ∃ t ∈ s.node.children, t.isNamed = true) :
    s.comments.all s.node = remarks s.comments.leading + remarks s.comments.trailing := by
  obtain ⟨t, ht, hnamed⟩ := hn
  rw [← h.nodes] at ht
  obtain ⟨p, hp, rfl⟩ := List.mem_map.mp ht
  have hne : s.named ≠ [] := List.ne_nil_of_mem (List.mem_filter.mpr ⟨hp, hnamed⟩)
  rw [NodeComments.all, inside_of_dangling_eq_nil _ (h.dangling_eq_nil hne), add_zero]

/-- A piece whose children are complete is complete. -/
theorem Site.Ready.complete_piece (h : s.Ready share) (hr : s.node.Regular)
    (hs : share s.node = s.comments.all s.node + shares share s.children) :
    s.piece.Complete share := by
  have hbare := h.yields_bare hr
  constructor
  case doc =>
    refine hbare.map fun d hd => ?_
    have hwrapped : Weaves (s.piece.wrap true d) _ _ := Weaves.wrap true hd
    exact hwrapped.congr rfl hs.symm
  case headless =>
    refine ⟨0 + s.comments.inside s.node + remarks s.comments.trailing +
      shares share s.children, ?_, ?_⟩
    · have hnode : s.piece.node = s.node := rfl
      have hcomments : s.piece.comments = s.comments := rfl
      rw [hnode, hcomments, hs, NodeComments.all]
      ac_rfl
    · refine hbare.map fun d hd => ?_
      have hwrapped : Weaves (s.piece.wrap false d) _ _ := Weaves.wrap false hd
      exact hwrapped
  case operators =>
    intro found hfound
    obtain ⟨hk, rfl⟩ := operators_piece hfound
    have ha := hr.allowed (by simp [hk]) (by rw [hk]; rfl)
    have hleaves := h.leafTexts_eq hr (by simp [hk]) (by rw [hk]; rfl)
    rw [hk] at ha
    have hnamed : ∃ t ∈ s.node.children, t.isNamed = true := by
      obtain ⟨left, operator, right, hc, hn, -⟩ := ha
      rw [hc]
      exact ⟨left, List.mem_cons_self, hn⟩
    have hchain := h.succeeds_operators ha
    rw [← h.all_eq hnamed, ← hs, ← hleaves] at hchain
    exact hchain
  case calls =>
    intro chain hchain
    obtain ⟨hk, hchain⟩ := calls_piece hchain
    have ha := hr.allowed (by simp [hk]) (by rw [hk]; rfl)
    have hleaves := h.leafTexts_eq hr (by simp [hk]) (by rw [hk]; rfl)
    rw [hk] at ha
    have hcalls := h.weaves_calls hchain
    rw [← h.all_eq ha, ← hs, ← hleaves] at hcalls
    exact hcalls

/-! ## Trees -/

section Trees

variable (scene : Scene)

/-- The piece of a tree is the tree with its layout. -/
theorem node_layOut (parent : Option NodeKind) (t : Tree) : (layOut scene parent t).node = t := by
  cases t <;> rw [layOut] <;> rfl

/-- The piece of a node has the comments that are attached to it. -/
theorem comments_layOut (parent : Option NodeKind) (t : Tree) :
    (layOut scene parent t).comments = scene.attachments.at t.index := by
  cases t <;> rw [layOut] <;> rfl

/-- The pieces of some nodes are theirs, in order. -/
theorem map_node_layOutAll (parent : Option NodeKind) (ts : List Tree) :
    (layOutAll scene parent ts).map Piece.node = ts := by
  induction ts with
  | nil => rfl
  | cons t ts ih => rw [layOutAll, List.map_cons, node_layOut, ih]

/-- Some nodes have some pieces. -/
theorem layOutAll_ne_nil (parent : Option NodeKind) {ts : List Tree} (h : ts ≠ []) :
    layOutAll scene parent ts ≠ [] := by
  rw [← map_node_layOutAll scene parent ts] at h
  exact fun hnil => h (List.map_eq_nil_iff.mpr hnil)

/-- Each piece of some nodes is that of one of them. -/
theorem exists_of_mem_layOutAll {scene : Scene} {parent : Option NodeKind} {ts : List Tree}
    {p : Piece} (hp : p ∈ layOutAll scene parent ts) : ∃ t ∈ ts, p = layOut scene parent t := by
  induction ts with
  | nil => cases hp
  | cons t ts ih =>
    rcases List.mem_cons.mp hp with rfl | hp
    · exact ⟨t, List.mem_cons_self, rfl⟩
    · obtain ⟨u, hu, rfl⟩ := ih hp
      exact ⟨u, List.mem_cons_of_mem _ hu, rfl⟩

/-- Without comments nothing is put to a node. -/
theorem comments_at_nil (i : Nat) : Attachments.at [] i = {} := rfl

/-- The document of a compilation unit is that of its root. -/
theorem document_of_program {p : Parsed} (as : Attachments) {root : Tree}
    (hroots : p.roots = [root]) (hk : root.kind = .program) :
    document p as = (layOut (Scene.of p as) p.rootParent root).doc := by
  have hkind : (layOut (Scene.of p as) p.rootParent root).kind = .program := by
    rw [Piece.kind, node_layOut, hk]
  rw [document, hroots, layOutAll, layOutAll]
  exact if_pos hkind

/-- Any other document is that of a fragment. -/
theorem document_of_fragment {p : Parsed} (as : Attachments) (hne : p.roots ≠ [])
    (hunit : ¬∃ root, p.roots = [root] ∧ root.kind = .program) :
    document p as = fragmentDoc p (layOutAll (Scene.of p as) p.rootParent p.roots) := by
  have hnodes := map_node_layOutAll (Scene.of p as) p.rootParent p.roots
  rw [document]
  split
  · rename_i hnil
    rw [hnil] at hnodes
    exact absurd hnodes.symm hne
  · rename_i piece hone
    rw [hone] at hnodes ⊢
    exact if_neg fun hk => hunit ⟨piece.node, hnodes.symm, hk⟩
  · rfl

/-- A tree is laid out at a site: the children there are complete, and their comments and those of
the site are all that are put to the nodes of the tree. -/
structure LaidOutAt (parent : Option NodeKind) (t : Tree) (s : Site) : Prop where
  piece : layOut scene parent t = s.piece
  node : s.node = t
  ready : s.Ready scene.attachments.within
  share : scene.attachments.within t =
    s.comments.all t + shares scene.attachments.within s.children

/-- What is laid out at a site is complete. -/
theorem LaidOutAt.complete {parent : Option NodeKind} {t : Tree} {s : Site}
    (h : LaidOutAt scene parent t s) (hr : t.Regular) :
    (layOut scene parent t).Complete scene.attachments.within := by
  obtain rfl := h.node
  rw [h.piece]
  exact h.ready.complete_piece hr h.share

mutual

/-- Every tree is laid out at a site. -/
theorem exists_laidOutAt (parent : Option NodeKind) : ∀ (t : Tree), t.WellShaped →
    scene.attachments.Fits t → ∃ s, LaidOutAt scene parent t s
  | .leaf info written, _, hf => by
    refine ⟨_, by rw [layOut], rfl, ⟨rfl, ?_, hf.vacant _ (Tree.mem_nodes_self _)⟩, ?_⟩
    · intro p hp
      cases hp
    · exact (Attachments.within_leaf info written).trans (add_zero _).symm
  | .branch info ts, hw, hf => by
    have hnodes := map_node_layOutAll scene (some info.kind) ts
    refine ⟨_, by rw [layOut], rfl, ⟨hnodes, ?_, hf.vacant _ (Tree.mem_nodes_self _)⟩, ?_⟩
    · exact inner_layOutAll (some info.kind) ts (Tree.wellShaped_branch_iff.mp hw).2
        (fun t ht => hf.child ht) fun t ht => hf.tokens t ht t t.mem_nodes_self
    · have hshares : shares scene.attachments.within (layOutAll scene (some info.kind) ts) =
          (ts.map scene.attachments.within).sum := by
        rw [shares_eq_sum, hnodes]
      exact (Attachments.within_branch info ts).trans (congrArg _ hshares.symm)

/-- The pieces of well-shaped nodes have their leaves and comments. -/
theorem inner_layOutAll (parent : Option NodeKind) : ∀ (ts : List Tree),
    (∀ t ∈ ts, t.WellShaped) → (∀ t ∈ ts, scene.attachments.Fits t) →
    (∀ t ∈ ts, t.kind = .token → scene.attachments.at t.index = {}) →
    ∀ p ∈ layOutAll scene parent ts, p.Inner scene.attachments.within
  | [], _, _, _ => by simp [layOutAll]
  | t :: ts, hw, hf, ht => by
    obtain ⟨hw, hws⟩ := List.forall_mem_cons.mp hw
    obtain ⟨hf, hfs⟩ := List.forall_mem_cons.mp hf
    obtain ⟨ht, hts⟩ := List.forall_mem_cons.mp ht
    have hnode := node_layOut scene parent t
    have hregular := hw t t.mem_nodes_self
    obtain ⟨s, hs⟩ := exists_laidOutAt parent t hw hf
    have hcomplete := hs.complete scene hregular
    rw [layOutAll]
    refine List.forall_mem_cons.mpr ⟨⟨hcomplete, ?_, ?_⟩, inner_layOutAll parent ts hws hfs hts⟩
    · rw [hnode]
      exact hregular
    · rw [Piece.kind, hnode]
      intro hk
      cases t with
      | leaf info written =>
        have hnone : scene.attachments.at info.index = {} := ht hk
        rw [Attachments.within_leaf, hnone, NodeComments.all, inside_of_dangling_eq_nil _ rfl]
        rfl
      | branch info us => exact absurd hk hregular.1

end

/-- A tree is laid out completely. -/
theorem complete_layOut (parent : Option NodeKind) (t : Tree) (hw : t.WellShaped)
    (hf : scene.attachments.Fits t) :
    (layOut scene parent t).Complete scene.attachments.within := by
  obtain ⟨s, hs⟩ := exists_laidOutAt scene parent t hw hf
  exact hs.complete scene (hw t t.mem_nodes_self)

end Trees

end JavaFormat.Layout
