import JavaFormat.Proofs.Layout.FirmRules
import JavaFormat.Proofs.Layout.Rule

/-!
# Trees are laid out firmly

The piece of a tree is firm if every node covers a leaf, by induction on the tree. A rule
with line breaks at its edges also needs the child that stands there: the declaration of a
type begins with a keyword, a group of a switch with a label, and a loop with its condition
behind ends with that condition.
-/

namespace JavaFormat

open Doc

/-- What the grammar puts at the edges of a node beyond `Allowed`: a type declaration has a
keyword, a loop with its condition behind has that condition, and a group of a switch begins
with a label. Without it the node has a line break at its edge. -/
def Shape.Headed (kind : NodeKind) (ts : List Tree) : Prop :=
  match kind with
  | .classDeclaration | .interfaceDeclaration | .enumDeclaration | .recordDeclaration
  | .annotationTypeDeclaration => ∃ t ∈ ts, Layout.isHead t
  | .doStatement => 3 ≤ ts.length
  | .switchBlockStatementGroup => ∃ label rest, ts = label :: rest ∧ label.kind = .switchLabel
  | _ => True

/-- A node that covers a leaf and has the children at its edges. -/
structure Tree.Leafy (t : Tree) : Prop where
  kind : t.kind ≠ .program
  leafTexts : t.leafTexts ≠ []
  headed : Shape.Headed t.kind t.children

namespace Layout

variable {s : Site}

/-- A leaf is printed as it is written. -/
theorem Site.ensures_leaf {info : NodeInfo} {text : String} (hn : s.node = .leaf info text)
    (hr : s.node.Regular) (htext : Text.Inline text) : Ensures s.bare Doc.Firm := by
  rcases Site.bare_leaf hn hr with hbare | hbare
  · rw [hbare]
    exact .pure (firm_inline htext)
  · rw [hbare]
    exact .pure (firm_ofLines htext.ends (by simpa [Text.isMultiline] using htext.single))

/-- Every rule prints its node firmly. The kinds without a rule of their own are printed child by
child, but for leaves and compilation units. -/
theorem Site.Firm.branch (h : s.Firm) (hnodes : s.children.map Piece.node = s.node.children)
    (ha : Shape.Allowed s.node.kind s.node.children)
    (hheaded : Shape.Headed s.node.kind s.node.children) (hne : s.children ≠ [])
    (ht : s.node.kind ≠ .token) (hv : s.node.kind.isVerbatim = false)
    (hp : s.node.kind ≠ .program) : Ensures s.bare Doc.Firm := by
  have hsequence : ∀ spacing, Ensures (s.sequence spacing) Doc.Firm :=
    fun spacing => ensures_sequence s.node.kind spacing h.children hne
  have htight := ensures_tight h.children hne
  have hlength : s.children.length = s.node.children.length := by
    rw [← hnodes, List.length_map]
  unfold Site.bare
  cases hk : s.node.kind <;> rw [hk] at ha hheaded ht hv hp
  case dimensions => exact h.dimensions hne
  case classDeclaration | interfaceDeclaration | enumDeclaration | recordDeclaration |
      annotationTypeDeclaration =>
    obtain ⟨t, hmem, hhead⟩ := hheaded
    rw [← hnodes] at hmem
    obtain ⟨p, hp, rfl⟩ := List.mem_map.mp hmem
    exact h.typeDeclaration ⟨p, hp, hhead⟩
  case classBody | interfaceBody | annotationTypeBody => exact h.body Gap.ofMembers
  case block | constructorBody | switchBlock | moduleBody => exact h.body Gap.none
  case enumBody => exact h.enumBody
  case enumBodyDeclarations => exact h.enumDeclarations
  case modifiers => exact h.modifiers hne
  case variableDeclarator => exact h.variableDeclarator hne
  case formalParameters | annotationArgumentList | recordPatternBody | typeParameters |
      elementValueArrayInitializer | resourceSpecification =>
    exact h.delimited (ListStyle.firm_of_inline (by decide) (by decide) (by decide))
  case arrayInitializer =>
    have hbraced : ListStyle.braced.Firm :=
      ListStyle.firm_of_inline (by decide) (by decide) (by decide)
    exact h.delimited ⟨hbraced.opening, hbraced.closing, hbraced.separator⟩
  case typeArguments => exact h.typeArguments
  case argumentList => exact h.arguments
  case methodInvocation => exact h.methodInvocation hne
  case assignmentExpression => exact h.assignment
  case binaryExpression => exact h.binary
  case ternaryExpression => exact h.ternary
  case unaryExpression => exact h.unary
  case parenthesizedExpression => exact h.parenthesized
  case ifStatement => exact h.ifStatement
  case whileStatement | forStatement | enhancedForStatement => exact h.loop (hlength ▸ ha)
  case doStatement => exact h.doLoop (hlength ▸ hheaded)
  case switchBlockStatementGroup =>
    obtain ⟨label, rest, hlist, hkind⟩ := hheaded
    rw [← hnodes] at hlist
    obtain ⟨p, ps, hps, rfl, -⟩ := List.map_eq_cons_iff.mp hlist
    exact h.switchGroup ⟨p, ps, hps, hkind⟩
  all_goals
    first
    | exact hsequence _
    | exact htight
    | exact absurd rfl ht
    | exact absurd rfl hp
    | exact absurd hv (by decide)

/-- The piece of a node is firm if what its rule prints is. -/
theorem Site.Firm.piece (h : s.Firm) (hbare : Ensures s.bare Doc.Firm)
    (htext : s.node.text = "" ∨ Doc.Firm (.text s.node.text)) : s.piece.Firm where
  bare := hbare
  comments := h.comments
  text := htext
  operators := by
    intro found hfound
    obtain ⟨-, rfl⟩ := operators_piece hfound
    exact ensures_operatorChain h.comments h.children
  calls := by
    intro chain hchain
    exact firm_callChain h.comments h.children (calls_piece hchain).2

section Trees

variable {scene : Scene}

/-- A tree of leafy nodes has a firm piece. -/
theorem firm_layOut (hcomments : ∀ i, (scene.attachments.at i).Firm) (parent : Option NodeKind)
    {t : Tree} (hw : t.WellShaped) (hleafy : ∀ u ∈ t.nodes, u.Leafy)
    (htexts : ∀ w ∈ t.leafTexts, Text.Inline w) : (layOut scene parent t).Firm := by
  induction t using Tree.induction_children generalizing parent with
  | step t ih =>
    have hregular := hw t t.mem_nodes_self
    have hself := hleafy t t.mem_nodes_self
    cases t with
    | leaf info text =>
      have htext : Text.Inline text := htexts text (by simp)
      have hsite : (scene.site parent (.leaf info text) []).Firm := ⟨by simp [Scene.site], hcomments _⟩
      rw [layOut]
      have hbare : Ensures (scene.site parent (.leaf info text) []).bare Doc.Firm :=
        Site.ensures_leaf rfl hregular htext
      exact hsite.piece hbare (.inr (firm_inline htext))
    | branch info ts =>
      have hnodes := map_node_layOutAll scene (some info.kind) ts
      have hchildren : ∀ p ∈ layOutAll scene (some info.kind) ts, p.Firm := by
        intro p hp
        obtain ⟨u, hu, rfl⟩ := exists_of_mem_layOutAll hp
        refine ih u hu _ ((Tree.wellShaped_branch_iff.mp hw).2 u hu)
          (fun v hv => hleafy v (Tree.mem_nodes_of_child hu hv)) fun w hw => htexts w ?_
        rw [Tree.leafTexts_branch]
        exact List.mem_flatMap.mpr ⟨u, hu, hw⟩
      have hsite : (scene.site parent (.branch info ts)
          (layOutAll scene (some info.kind) ts)).Firm := ⟨hchildren, hcomments _⟩
      have hne : layOutAll scene (some info.kind) ts ≠ [] := by
        refine layOutAll_ne_nil scene _ ?_
        rintro rfl
        exact hself.leafTexts rfl
      rw [layOut]
      refine hsite.piece ?_ (.inl rfl)
      exact hsite.branch hnodes hregular.2.2 hself.headed hne hregular.1 hregular.2.1 hself.kind

end Trees

end Layout

end JavaFormat
