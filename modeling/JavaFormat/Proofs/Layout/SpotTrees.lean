import JavaFormat.Proofs.Layout.FirmTrees
import JavaFormat.Proofs.Layout.SpotExpressions

/-!
# The line breaks that the layout of a tree fixes

`Site.breaks` says for every kind of node in front of which of its children the layout fixes the
number of line breaks, and how many there are. By induction on the tree the document of a node
shows the leaves of the node with just as many breaks there, whatever the renderer does.
-/

namespace JavaFormat.Layout

open Doc

/-- The numbers of breaks in front of the children of a node, where the layout fixes them. -/
def Site.breaks (s : Site) : List (Option Nat) :=
  match s.node.kind with
  | .program => membersBreaks s.source Gap.ofProgram s.children
  | .classBody | .interfaceBody | .annotationTypeBody =>
    none :: membersBreaks s.source Gap.ofMembers s.unbraced
  | .block | .constructorBody | .switchBlock | .moduleBody =>
    none :: membersBreaks s.source Gap.none s.unbraced
  | .enumBody => none :: constantBreaks s.source false s.unbraced
  | .enumBodyDeclarations => none :: membersBreaks s.source Gap.ofMembers (s.children.drop 1)
  | .switchBlockStatementGroup => groupBreaks s.source false s.children
  | .modifiers => modifiersBreaks s.parent s.children
  | .classDeclaration | .interfaceDeclaration | .enumDeclaration | .recordDeclaration
  | .annotationTypeDeclaration => headBreaks s.node.kind s.children
  | .packageDeclaration | .importDeclaration | .fieldDeclaration | .constantDeclaration
  | .localVariableDeclaration | .superclass | .superInterfaces | .extendsInterfaces | .permits
  | .typeList | .throws | .defaultValue | .enumConstant | .formalParameter | .spreadParameter
  | .receiverParameter | .staticInitializer | .elementValuePair =>
    lineBreaks s.node.kind .standard s.children
  | .annotatedType | .wildcard | .typeParameter | .typeBound | .pattern | .typePattern
  | .recordPatternComponent | .moduleDeclaration | .moduleDirective | .requiresModuleDirective
  | .exportsModuleDirective | .opensModuleDirective | .usesModuleDirective
  | .providesModuleDirective => lineBreaks s.node.kind .standard s.children
  | .expressionStatement | .returnStatement | .throwStatement | .yieldStatement
  | .breakStatement | .continueStatement | .assertStatement | .synchronizedStatement
  | .tryStatement | .tryWithResourcesStatement | .catchClause | .catchFormalParameter
  | .catchType | .finallyClause | .resource | .switchRule | .switchLabel | .guard =>
    lineBreaks s.node.kind .standard s.children
  | .castExpression | .instanceofExpression | .lambdaExpression | .inferredParameters
  | .objectCreationExpression | .arrayCreationExpression | .switchExpression =>
    lineBreaks s.node.kind .standard s.children
  | .methodDeclaration | .constructorDeclaration | .compactConstructorDeclaration
  | .annotationTypeElementDeclaration => lineBreaks s.node.kind .ofMethod s.children
  | .labeledStatement => lineBreaks s.node.kind .ofLabel s.children
  | .whileStatement | .forStatement | .enhancedForStatement =>
    lineBreaks s.node.kind .standard s.children.dropLast
  | .doStatement => none :: none :: lineBreaks s.node.kind .standard (s.children.drop 2)
  | _ => []

/-- The spots of the node of a site without the comments around it, `spots` being those of its
children. -/
def Site.spots (spots : Piece → List Spot) (s : Site) : List Spot :=
  splice s.breaks (s.comments.tuck Comment.spots (s.children.map spots))

section Rules

variable {spots : Piece → List Spot} {s : Site}

/-- A node without comments inside it has the spots of its children. -/
theorem Site.spots_of_dangling (h : s.comments.dangling = []) :
    s.spots spots = knit spots s.breaks s.children := by
  rw [Site.spots, NodeComments.tuck_of_nil h, knit]

/-- The rules for bodies fix the breaks in front of what stands in them, and show the comments
inside behind the opening brace. -/
theorem Site.Lined.body_bare (h : s.Lined spots) (hk : s.node.kind.isBody = true)
    (hquiet : s.node.kind = .enumBody → ∀ p ∈ s.children, p.comments.trailing = [])
    (ha : Shape.Allowed s.node.kind s.node.children) :
    Ensures s.bare (Places · (s.spots spots)) := by
  unfold Site.bare Site.spots Site.breaks
  cases hkind : s.node.kind <;> rw [hkind] at ha hk hquiet
  case classBody | interfaceBody | annotationTypeBody => exact h.body ha Gap.ofMembers
  case block | constructorBody | switchBlock | moduleBody => exact h.body ha Gap.none
  case enumBody => exact h.enumBody (hquiet rfl) ha
  all_goals cases hk

/-- Every other rule fixes the breaks in front of the children of its node, and no others. The kinds
without a rule of their own are printed child by child, but for leaves and compilation units. -/
theorem Site.Spotted.bare (h : s.Spotted spots) (ha : Shape.Allowed s.node.kind s.node.children)
    (hheaded : Shape.Headed s.node.kind s.node.children) (hne : s.children ≠ [])
    (hbody : s.node.kind.isBody = false)
    (hown : s.node.kind = .binaryExpression ∨ s.node.kind = .methodInvocation → s.comments = {})
    (hleading : s.node.kind = .methodInvocation → ∀ p ∈ s.children, p.comments.leading = [])
    (ht : s.node.kind ≠ .token) (hv : s.node.kind.isVerbatim = false)
    (hp : s.node.kind ≠ .program) : Ensures s.bare (Places · (knit spots s.breaks s.children)) := by
  have hsequence : ∀ spacing, Ensures (s.sequence spacing)
      (Places · (knit spots (lineBreaks s.node.kind spacing s.children) s.children)) :=
    fun spacing => places_sequence s.node.kind spacing h.children hne
  have htight := places_tight h.children hne
  have hloop := h.loop
  have hdeclared := h.typeDeclaration
  have hdo := h.doLoop
  have hlength : s.children.length = s.node.children.length := by
    rw [← h.nodes, List.length_map]
  unfold Site.bare Site.breaks
  cases hk : s.node.kind <;>
    rw [hk] at ha hheaded ht hv hp hbody hown hleading hsequence hloop hdeclared hdo
  case dimensions => exact h.dimensions hne
  case classDeclaration | interfaceDeclaration | enumDeclaration | recordDeclaration |
      annotationTypeDeclaration => exact hdeclared ha hheaded
  case enumBodyDeclarations => exact h.enumDeclarations ha
  case modifiers => exact h.modifiers hne
  case variableDeclarator => exact h.variableDeclarator ha hne
  case formalParameters | annotationArgumentList | recordPatternBody | typeParameters |
      elementValueArrayInitializer | resourceSpecification => exact h.delimited _ ha
  case arrayInitializer => exact h.delimited _ ha
  case typeArguments => exact h.typeArguments ha
  case argumentList => exact h.arguments ha
  case methodInvocation => exact h.methodInvocation (hown (.inr rfl)) (hleading rfl) hne
  case assignmentExpression => exact h.assignment ha
  case binaryExpression => exact h.binary (hown (.inl rfl)) ha
  case ternaryExpression => exact h.ternary ha
  case unaryExpression => exact h.unary ha
  case parenthesizedExpression => exact h.parenthesized ha
  case ifStatement => exact h.ifStatement ha
  case whileStatement | forStatement | enhancedForStatement => exact hloop (hlength ▸ ha)
  case doStatement => exact hdo (hlength ▸ hheaded)
  case switchBlockStatementGroup =>
    obtain ⟨label, rest, hlist, hkind⟩ := hheaded
    rw [← h.nodes] at hlist
    obtain ⟨p, ps, hps, rfl, -⟩ := List.map_eq_cons_iff.mp hlist
    exact h.switchGroup hps hkind
  all_goals
    first
    | exact hsequence _
    | exact htight
    | exact absurd rfl ht
    | exact absurd rfl hp
    | exact absurd hv (by decide)
    | exact absurd hbody (by decide)

/-- No breaks are fixed around operators and in front of the dots of calls. -/
theorem Site.breaks_of_chain
    (hk : s.node.kind = .binaryExpression ∨ s.node.kind = .methodInvocation) : s.breaks = [] := by
  unfold Site.breaks
  rcases hk with hk | hk <;> rw [hk]

/-- A node with the comments around it and around its children where they are shown in order. -/
structure Site.Orderly (spots : Piece → List Spot) (s : Site) : Prop extends s.Lined spots where
  own : s.node.kind = .binaryExpression ∨ s.node.kind = .methodInvocation → s.comments = {}
  dangling : s.node.kind.isBody = false → s.comments.dangling = []
  waiting : KeepsWaiting s.comments.trailing
  leading : s.node.kind = .methodInvocation → ∀ p ∈ s.children, p.comments.leading = []
  quiet : s.node.kind.holdsMembers = false → ∀ p ∈ s.children, p.comments.trailing = []

/-- Bodies print the comments inside them. -/
theorem printsDangling_of_isBody {k : NodeKind} (h : k.isBody = true) :
    printsDangling k = true := by
  cases k <;> first | rfl | cases h

namespace Site.Orderly

/-- The children of a node that is no list of members have no comments behind them. -/
theorem spotted (h : s.Orderly spots) (hbody : s.node.kind.isBody = false)
    (hp : s.node.kind ≠ .program) : s.Spotted spots where
  nodes := h.nodes
  children p hmem :=
    ⟨h.children p hmem, h.quiet (by simp [NodeKind.holdsMembers, hbody, hp]) p hmem⟩
  dangling := h.dangling hbody

/-- Every rule but that for compilation units shows the spots of its node. -/
theorem bare (h : s.Orderly spots) (ha : Shape.Allowed s.node.kind s.node.children)
    (hheaded : Shape.Headed s.node.kind s.node.children) (hne : s.children ≠ [])
    (ht : s.node.kind ≠ .token) (hv : s.node.kind.isVerbatim = false)
    (hp : s.node.kind ≠ .program) : Ensures s.bare (Places · (s.spots spots)) := by
  cases hbody : s.node.kind.isBody with
  | true =>
    refine h.body_bare hbody (fun hk => h.quiet ?_) ha
    rw [hk]
    rfl
  | false =>
    rw [spots_of_dangling (h.dangling hbody)]
    exact (h.spotted hbody hp).bare ha hheaded hne hbody h.own h.leading ht hv hp

/-- A node whose first child has a spot has one. -/
theorem spots_ne_nil (h : s.Orderly spots) (hne : s.children ≠ []) : s.spots spots ≠ [] := by
  obtain ⟨p, ps, hps⟩ := List.exists_cons_of_ne_nil hne
  have hfirst := (h.children p (by simp [hps])).ne_nil
  rw [Site.spots, hps, List.map_cons, NodeComments.tuck]
  generalize s.breaks = ks
  cases ks <;> simp [splice, hfirst]

/-- The piece of a node with children. -/
theorem piece (h : s.Orderly spots) (hr : s.node.Regular)
    (hheaded : Shape.Headed s.node.kind s.node.children) (hne : s.children ≠ [])
    (ht : s.node.kind ≠ .token) (hv : s.node.kind.isVerbatim = false)
    (hp : s.node.kind ≠ .program) :
    s.piece.Lined (s.comments.frame Comment.spots (s.spots spots)) where
  ne_nil := by simp [NodeComments.frame, h.spots_ne_nil hne]
  modifiers hk := h.dangling (by
    rw [show s.node.kind = .modifiers from hk]
    rfl)
  token hk := absurd hk ht
  precedes := by
    have hprinted : s.comments.dangling = [] ∨ printsDangling s.node.kind = true := by
      cases hbody : s.node.kind.isBody with
      | true => exact .inr (printsDangling_of_isBody hbody)
      | false => exact .inl (h.dangling hbody)
    exact (h.bare (hr.allowed ht hv) hheaded hne ht hv hp).map fun d hd =>
      precedes_wrap (p := s.piece) hprinted h.waiting hd
  operators := by
    intro found hfound
    obtain ⟨hk, rfl⟩ := operators_piece hfound
    have hown := h.own (.inl hk)
    have hallowed := hr.allowed ht hv
    rw [hk] at hallowed
    rw [NodeComments.frame_of_nil (by rw [hown]) (by rw [hown]), spots_of_dangling (by rw [hown]),
      breaks_of_chain (.inl hk), hown]
    exact (h.spotted (by rw [hk]; rfl) hp).operatorChain hallowed
  calls := by
    intro chain hchain
    obtain ⟨hk, hchain⟩ := calls_piece hchain
    have hown := h.own (.inr hk)
    rw [hown] at hchain
    rw [NodeComments.frame_of_nil (by rw [hown]) (by rw [hown]), spots_of_dangling (by rw [hown]),
      breaks_of_chain (.inr hk)]
    exact places_callChain (h.spotted (by rw [hk]; rfl) hp).children (h.leading hk) hchain

end Site.Orderly

/-- The piece of a compilation unit without comments of its own. -/
theorem Site.Lined.strings_program (h : s.Lined spots) (hcomments : s.comments = {})
    (hk : s.node.kind = .program) :
    Ensures s.piece.doc (Strings none · (knit spots s.breaks s.children) none) := by
  have hrule : s.piece.bare = s.program := by
    show s.bare = s.program
    unfold Site.bare
    rw [hk]
  have hbreaks : s.breaks = membersBreaks s.source Gap.ofProgram s.children := by
    unfold Site.breaks
    rw [hk]
  have hbare : Ensures s.piece.bare
      (Strings none · (knit spots s.breaks s.children) none) := by
    rw [hbreaks, hrule]
    exact h.program (by rw [hcomments])
  exact hbare.map fun d hd => by rwa [wrap_of_comments hcomments]

end Rules

/-! ## Trees -/

mutual

/-- The leaves of a tree below a node of kind `parent` and the comments of its nodes, with the
breaks that the layout fixes in front of them. -/
def Scene.spots (scene : Scene) (parent : Option NodeKind) : Tree → List Spot
  | .leaf info written =>
    (scene.attachments.at info.index).frame Comment.spots [⟨none, written⟩]
  | .branch info ts => (scene.attachments.at info.index).frame Comment.spots
      (splice (scene.site parent (.branch info ts) (layOutAll scene (some info.kind) ts)).breaks
        ((scene.attachments.at info.index).tuck Comment.spots
          (scene.spotsOfAll (some info.kind) ts)))

/-- The spots of each of several trees. -/
def Scene.spotsOfAll (scene : Scene) (parent : Option NodeKind) : List Tree → List (List Spot)
  | [] => []
  | t :: ts => scene.spots parent t :: scene.spotsOfAll parent ts

end

section Trees

variable {scene : Scene}

/-- The spots of several nodes are listed node by node. -/
theorem Scene.spotsOfAll_eq_map (scene : Scene) (parent : Option NodeKind) (ts : List Tree) :
    scene.spotsOfAll parent ts = ts.map (scene.spots parent) := by
  induction ts with
  | nil => rfl
  | cons t ts ih => rw [spotsOfAll, ih, List.map_cons]

/-- The spots of several nodes are those of their pieces. -/
theorem Scene.map_spots_layOutAll (scene : Scene) (parent : Option NodeKind) (ts : List Tree) :
    (layOutAll scene parent ts).map (fun p => scene.spots parent p.node) =
      scene.spotsOfAll parent ts := by
  rw [scene.spotsOfAll_eq_map, ← map_node_layOutAll scene parent ts, List.map_map,
    map_node_layOutAll]
  rfl

/-- The texts of the spots of a tree are those of its leaves and comments. -/
theorem Scene.map_text_spots (scene : Scene) (parent : Option NodeKind) (t : Tree) :
    (scene.spots parent t).map Spot.text = (scene.attachments.items t).flatMap Item.rows := by
  induction t using Tree.induction_children generalizing parent with
  | step t ih =>
    cases t with
    | leaf info text => exact NodeComments.map_text_frame rfl
    | branch info ts =>
      refine NodeComments.map_text_frame ?_
      rw [map_text_splice]
      refine NodeComments.flatMap_text_tuck ?_
      rw [spotsOfAll_eq_map, Attachments.itemsOfAll_eq_map, List.map_map, List.map_map]
      exact List.map_congr_left fun u hu => ih u hu _

/-- The pieces of trees have the comments of their nodes. -/
theorem comments_of_mem_layOutAll {parent : Option NodeKind} {ts : List Tree} :
    ∀ p ∈ layOutAll scene parent ts, p.comments = scene.attachments.at p.node.index := by
  intro p hp
  obtain ⟨t, -, rfl⟩ := exists_of_mem_layOutAll hp
  rw [comments_layOut, node_layOut]

/-- The site of a branch in a scene where comments are shown in order. -/
theorem orderly_site {parent : Option NodeKind} {t : Tree} {ps : List Piece}
    {spots : Piece → List Spot}
    (h : scene.attachments.Orderly t) (hnodes : ps.map Piece.node = t.children)
    (hcomments : ∀ p ∈ ps, p.comments = scene.attachments.at p.node.index)
    (hps : ∀ p ∈ ps, p.Lined (spots p)) : (scene.site parent t ps).Orderly spots where
  nodes := hnodes
  children := hps
  semicolons := by
    show ps.IsChain Piece.AdmitsSemicolon
    have hchain := h.neighbours
    rw [← hnodes, List.isChain_map] at hchain
    exact hchain.imp_of_mem_imp fun p q hp _ hparts hq => by
      rw [hcomments p hp]
      exact hparts.semicolon hq
  own hk := h.own (.inr (.inr hk))
  dangling := h.dangling
  waiting := h.waiting
  leading hk p hp := by
    rw [hcomments p hp]
    exact h.leading (.inr hk) p.node (hnodes ▸ List.mem_map_of_mem hp)
  quiet hk p hp := by
    rw [hcomments p hp]
    exact h.trailing hk p.node (hnodes ▸ List.mem_map_of_mem hp)

/-- A leaf shows itself between its comments. -/
theorem lined_leaf (parent : Option NodeKind) {info : NodeInfo} {text : String}
    (hr : (Tree.leaf info text).Regular) (h : scene.attachments.Orderly (.leaf info text)) :
    (layOut scene parent (.leaf info text)).Lined (scene.spots parent (.leaf info text)) := by
  have hbody : info.kind.isBody = false := by
    rcases hr with hk | hk
    · rw [hk]
      rfl
    · generalize info.kind = k at hk
      cases k <;> first | rfl | cases hk
  have hdangling := h.dangling hbody
  have hplaced : Ensures (layOut scene parent (.leaf info text)).bare
      (Places · [⟨none, text⟩]) := by
    rw [layOut]
    show Ensures (scene.site parent (.leaf info text) []).bare (Places · [⟨none, text⟩])
    rcases Site.bare_leaf (s := scene.site parent (.leaf info text) []) rfl hr with hbare | hbare
    · rw [hbare]
      exact .pure (places_text text)
    · rw [hbare]
      exact .pure (places_ofLines text)
  rw [Scene.spots]
  exact {
    ne_nil := by simp [NodeComments.frame]
    modifiers := fun _ => hdangling
    token := fun hk => by
      have hnone := h.own (.inl hk)
      rw [show scene.attachments.at info.index = {} from hnone]
      rfl
    precedes := hplaced.map fun d hd => precedes_wrap (.inl hdangling) h.waiting hd
    operators := fun _ hfound =>
      absurd (operators_piece hfound).1 (hr.kind_ne_of_leaf (by simp) rfl)
    calls := fun _ hchain => absurd (calls_piece hchain).1 (hr.kind_ne_of_leaf (by simp) rfl) }

/-- The piece of a tree shows the spots of the tree. -/
theorem lined_layOut (parent : Option NodeKind) {t : Tree} (hw : t.WellShaped)
    (hleafy : ∀ u ∈ t.nodes, u.Leafy) (horderly : ∀ u ∈ t.nodes, scene.attachments.Orderly u) :
    (layOut scene parent t).Lined (scene.spots parent t) := by
  induction t using Tree.induction_children generalizing parent with
  | step t ih =>
    have hregular := hw t t.mem_nodes_self
    have hself := hleafy t t.mem_nodes_self
    cases t with
    | leaf info text => exact lined_leaf parent hregular (horderly _ (Tree.mem_nodes_self _))
    | branch info ts =>
      have hnodes := map_node_layOutAll scene (some info.kind) ts
      have hpieces : ∀ p ∈ layOutAll scene (some info.kind) ts,
          p.Lined (scene.spots (some info.kind) p.node) := by
        intro p hp
        obtain ⟨u, hu, rfl⟩ := exists_of_mem_layOutAll hp
        rw [node_layOut]
        exact ih u hu _ ((Tree.wellShaped_branch_iff.mp hw).2 u hu)
          (fun v hv => hleafy v (Tree.mem_nodes_of_child hu hv))
          fun v hv => horderly v (Tree.mem_nodes_of_child hu hv)
      have hsite : (scene.site parent (.branch info ts)
          (layOutAll scene (some info.kind) ts)).Orderly
            fun p => scene.spots (some info.kind) p.node :=
        orderly_site (horderly _ (Tree.mem_nodes_self _)) hnodes comments_of_mem_layOutAll hpieces
      have hne : layOutAll scene (some info.kind) ts ≠ [] := by
        refine layOutAll_ne_nil scene _ ?_
        rintro rfl
        exact hself.leafTexts rfl
      have hpiece := hsite.piece hregular hself.headed hne hregular.1 hregular.2.1 hself.kind
      rw [layOut, Scene.spots, ← scene.map_spots_layOutAll]
      exact hpiece

end Trees

end JavaFormat.Layout
