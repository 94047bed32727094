import JavaFormat.Proofs.Layout.Document
import JavaFormat.Proofs.Layout.FirmTrees
import JavaFormat.Proofs.Layout.LaidExpressions

/-!
# Neighbouring words never fuse

The piece of a tree without comments keeps its words apart, by induction on the tree, if every
node is written as the grammar says and the children of a tight node meet like identifiers only
next to an annotation. So no two words of a source are read as one in the output, and what is
printed of a node begins with its first leaf, which is what the rule for unary expressions
looks ahead to.
-/

namespace JavaFormat

namespace Parsed

variable {p : Parsed}

/-- A source every node of which is written as the grammar says. A compilation unit is the only
root if there is one. -/
def Written (p : Parsed) : Prop :=
  ∀ t ∈ Tree.nodesOfAll p.roots, t.Written ∨ p.roots = [t] ∧ t.kind = .program

/-- A node that is no compilation unit is lexed. -/
theorem Written.lexed (h : p.Written) (hw : p.WellShaped) {t : Tree}
    (ht : t ∈ Tree.nodesOfAll p.roots) (hk : t.kind ≠ .program) : t.Lexed := by
  intro u hu
  have hmem := Tree.mem_nodesOfAll_trans ht hu
  have hroots := hmem
  rw [Tree.nodesOfAll_eq_flatMap] at hroots
  obtain ⟨root, hroot, hbelow⟩ := List.mem_flatMap.mp hroots
  refine ⟨hw.shaped root hroot u hbelow, (h u hmem).resolve_right ?_⟩
  rintro ⟨halone, hprogram⟩
  have hself : u ∈ p.roots := by
    rw [halone]
    exact List.mem_singleton_self u
  have habove : t ∈ u.nodes := by
    rw [halone, Tree.nodesOfAll_eq_flatMap] at ht
    simpa using ht
  rcases Tree.mem_nodes_iff.mp habove with rfl | ⟨v, hv, htv⟩
  · exact hk hprogram
  · have hcircle := Tree.mem_nodes_trans htv hu
    exact not_mem_roots_of_below hw.numbered.of_map hself hv hcircle hself

/-- The children of a root are no compilation units. -/
theorem Written.lexed_child (h : p.Written) (hw : p.WellShaped) {root t : Tree}
    (hroot : root ∈ p.roots) (ht : t ∈ root.children) : t.Lexed := by
  have hmem : t ∈ Tree.nodesOfAll p.roots :=
    Tree.mem_nodesOfAll_of_mem hroot (Tree.mem_nodes_of_mem_children ht)
  refine h.lexed hw hmem ?_
  rcases h t hmem with hwritten | ⟨halone, -⟩
  · exact hwritten.kind
  · have hself : t ∈ p.roots := by
      rw [halone]
      exact List.mem_singleton_self t
    exact absurd hself
      (not_mem_roots_of_below hw.numbered.of_map hroot ht t.mem_nodes_self)

end Parsed

namespace Layout

open Doc

variable {letters : Char → Bool} {s : Site}

/-! ## Nodes -/

/-- A leaf is a word. -/
theorem Site.apart_leaf {info : NodeInfo} {text : String} (hn : s.node = .leaf info text)
    (hr : s.node.Regular) : Ensures s.bare (Sets letters · [⟨text, false⟩]) := by
  rcases Site.bare_leaf hn hr with hbare | hbare
  · rw [hbare]
    exact .pure fun b hb => lays_text (w := ⟨text, false⟩) (joins_cons.mp hb)
  · rw [hbare]
    exact .pure fun b hb => lays_ofLines (w := ⟨text, false⟩) (joins_cons.mp hb)

/-- The children of a call meet like no identifiers: none of them is an annotation. -/
theorem parted_of_written {ps : List Piece} (hmeet : ps.IsChain (MeetByAnnotations letters))
    (h : ∀ p ∈ ps, p.kind.isAnnotationUse = false) : Parted letters ps := by
  refine List.IsChain.imp_of_mem_imp (fun p q hp hq hpq => ?_) hmeet
  by_contra hmeets
  rw [Bool.not_eq_false] at hmeets
  have hp : p.node.kind.isAnnotationUse = false := h p hp
  have hq : q.node.kind.isAnnotationUse = false := h q hq
  rcases hpq hmeets with hannotation | hannotation
  · rw [hp] at hannotation
    cases hannotation
  · rw [hq] at hannotation
    cases hannotation

namespace Site.Apart

variable {info : NodeInfo} {ts : List Tree}

/-- The words of a node with children are those of the pieces of its children, but for the sign
of a unary expression. -/
theorem words_node (h : s.Apart letters) (hn : s.node = .branch info ts) :
    s.node.words = if s.node.kind = .unaryExpression then Tree.markSign (wordsOf s.children)
      else wordsOf s.children := by
  have hchildren : wordsOf s.children = ts.flatMap Tree.words := by
    have hnodes : s.children.map Piece.node = ts := by
      rw [h.nodes, hn]
      rfl
    rw [wordsOf_eq_flatMap, hnodes]
  rw [hchildren, hn, Tree.words, Tree.wordsOfAll_eq_flatMap]
  rfl

/-- The children of a tight node meet like identifiers only next to an annotation. -/
theorem isChain_children (h : s.Apart letters) (hmeet : s.node.MeetsByAnnotations letters)
    (hk : s.node.kind.isTight = true) : s.children.IsChain (MeetByAnnotations letters) := by
  have hchain := hmeet hk
  rwa [← h.nodes, List.isChain_map] at hchain

/-- The parts of a call do not meet like identifiers. -/
theorem parted (h : s.Apart letters) (hw : Shape.Written s.node.kind s.node.children)
    (hmeet : s.node.MeetsByAnnotations letters) (hk : s.node.kind = .methodInvocation) :
    Parted letters s.children := by
  rw [hk] at hw
  refine parted_of_written (h.isChain_children hmeet (by rw [hk]; rfl)) fun p hp => ?_
  exact hw p.node (h.nodes ▸ List.mem_map_of_mem hp)

/-- Every rule keeps the words of its node apart. The kinds without a rule of their own are printed
child by child, but for leaves. -/
theorem bare (h : s.Apart letters) (hn : s.node = .branch info ts) (hr : s.node.Regular)
    (hw : Shape.Written s.node.kind s.node.children) (hmeet : s.node.MeetsByAnnotations letters) :
    Ensures s.bare (Sets letters · s.node.words) := by
  obtain ⟨ht, hv, ha⟩ : s.node.kind ≠ .token ∧ s.node.kind.isVerbatim = false ∧
      Shape.Allowed s.node.kind s.node.children := by
    rw [hn] at hr ⊢
    exact hr
  have hsequence : ∀ {spacing : Spacing}, spacing.Sane →
      Ensures (s.sequence spacing) (Sets letters · (wordsOf s.children)) :=
    fun hs => apart_sequence s.node.kind hs h.children
  have htight : s.node.kind.isTight = true →
      Ensures (tight s.children) (Sets letters · (wordsOf s.children)) :=
    fun hk => apart_tight h.children (h.isChain_children hmeet hk)
  have hchain := h.isChain_children hmeet
  have hparted := h.parted hw hmeet
  rw [h.words_node hn]
  unfold Site.bare
  cases hk : s.node.kind <;> rw [hk] at ha hw hchain hparted htight ht hv
  case unaryExpression => exact h.unary ha hw
  all_goals rw [if_neg (by simp)]
  case dimensions => exact h.dimensions (hchain rfl)
  case classDeclaration | interfaceDeclaration | enumDeclaration | recordDeclaration |
      annotationTypeDeclaration => exact h.typeDeclaration ha
  case classBody | interfaceBody | annotationTypeBody => exact h.body ha Gap.ofMembers
  case block | constructorBody | switchBlock | moduleBody => exact h.body ha Gap.none
  case program => exact h.program
  case enumBody => exact h.enumBody ha
  case enumBodyDeclarations => exact h.enumDeclarations ha
  case modifiers => exact h.modifiers
  case variableDeclarator => exact h.variableDeclarator ha hw
  case formalParameters | annotationArgumentList | recordPatternBody | typeParameters |
      elementValueArrayInitializer | resourceSpecification =>
    exact h.delimited ⟨by decide, by decide, by decide⟩ ha
  case arrayInitializer =>
    have hbraced : ListStyle.braced.Sane := ⟨by decide, by decide, by decide⟩
    exact h.delimited ⟨hbraced.opening, hbraced.separator, hbraced.closing⟩ ha
  case typeArguments => exact h.typeArguments ha
  case argumentList => exact h.arguments ha
  case methodInvocation => exact h.methodInvocation (hparted rfl)
  case assignmentExpression => exact h.assignment ha
  case binaryExpression => exact h.binary ha
  case ternaryExpression => exact h.ternary ha
  case parenthesizedExpression => exact h.parenthesized ha
  case ifStatement => exact h.ifStatement ha
  case whileStatement | forStatement | enhancedForStatement => exact h.loop
  case doStatement => exact h.doLoop
  case switchBlockStatementGroup => exact h.switchGroup
  all_goals
    first
    | exact hsequence Spacing.sane_standard
    | exact hsequence Spacing.sane_ofMethod
    | exact hsequence Spacing.sane_ofLabel
    | exact htight rfl
    | exact absurd rfl ht
    | exact absurd hv (by decide)

/-- The piece of a node with children. -/
theorem piece (h : s.Apart letters) (hn : s.node = .branch info ts) (hlexed : s.node.Lexed)
    (hmeet : s.node.MeetsByAnnotations letters) : s.piece.Apart letters where
  lexed := hlexed
  comments := h.comments
  bare := h.bare hn hlexed.regular hlexed.written.children hmeet
  operators := by
    intro found hfound
    obtain ⟨hk, rfl⟩ := operators_piece hfound
    have hwords : s.piece.node.words = wordsOf s.children := by
      have hnode := h.words_node hn
      rwa [hk, if_neg (by simp)] at hnode
    have hallowed := hlexed.regular.allowed (by simp [hk]) (by rw [hk]; rfl)
    rw [hk] at hallowed
    rw [hwords, h.comments]
    exact h.operatorChain hallowed
  calls := by
    intro chain hchain
    obtain ⟨hk, hchain⟩ := calls_piece hchain
    have hwords : s.piece.node.words = wordsOf s.children := by
      have hnode := h.words_node hn
      rwa [hk, if_neg (by simp)] at hnode
    rw [hwords]
    rw [h.comments] at hchain
    exact sets_callChain h.children (h.parted hlexed.written.children hmeet hk) hchain

end Site.Apart

/-! ## Trees -/

section Trees

variable {scene : Scene}

/-- The site of a node is apart if the pieces of its children are. -/
theorem apart_site (hcomments : ∀ i, scene.attachments.at i = {}) (parent : Option NodeKind)
    {info : NodeInfo} {ts : List Tree}
    (h : ∀ t ∈ ts, ∀ above, (layOut scene above t).Apart letters) :
    (scene.site parent (.branch info ts) (layOutAll scene (some info.kind) ts)).Apart letters where
  nodes := map_node_layOutAll scene (some info.kind) ts
  children := by
    intro p hp
    obtain ⟨t, ht, rfl⟩ := exists_of_mem_layOutAll hp
    exact h t ht _
  comments := hcomments _

/-- The piece of a tree without comments keeps its words apart. -/
theorem apart_layOut (hcomments : ∀ i, scene.attachments.at i = {}) (parent : Option NodeKind)
    {t : Tree} (hlexed : t.Lexed) (hmeet : ∀ u ∈ t.nodes, u.MeetsByAnnotations letters) :
    (layOut scene parent t).Apart letters := by
  induction t using Tree.induction_children generalizing parent with
  | step t ih =>
    cases t with
    | leaf info text =>
      rw [layOut]
      exact ⟨hlexed, hcomments _, Site.apart_leaf rfl hlexed.regular,
        fun _ hfound => absurd (operators_piece hfound).1
          (hlexed.regular.kind_ne_of_leaf (by simp) rfl),
        fun _ hchain => absurd (calls_piece hchain).1
          (hlexed.regular.kind_ne_of_leaf (by simp) rfl)⟩
    | branch info ts =>
      have hchildren : ∀ u ∈ ts, ∀ above, (layOut scene above u).Apart letters :=
        fun u hu above => ih u hu above (hlexed.child hu)
          fun v hv => hmeet v (Tree.mem_nodes_of_child hu hv)
      rw [layOut]
      have hself := hmeet _ (Tree.mem_nodes_self _)
      exact (apart_site hcomments parent hchildren).piece rfl hlexed hself

end Trees

/-! ## The document of a source -/

section Source

variable {p : Parsed}

/-- The document of a compilation unit. -/
theorem apart_program (hw : p.WellShaped) (h : p.Written)
    (hmeet : ∀ t ∈ Tree.nodesOfAll p.roots, t.MeetsByAnnotations letters) {root : Tree}
    (hroot : root ∈ p.roots) (hk : root.kind = .program) :
    Ensures (layOut (Scene.of p []) p.rootParent root).doc (Sets letters · root.words) := by
  obtain ⟨info, ts, rfl⟩ := (hw.shaped _ hroot _ (Tree.mem_nodes_self _)).exists_branch
    (by simp [hk]) (by rw [hk]; rfl)
  have hk : info.kind = .program := hk
  have hchildren : ∀ t ∈ ts, ∀ above, (layOut (Scene.of p []) above t).Apart letters :=
    fun t ht above => apart_layOut comments_at_nil above (h.lexed_child hw hroot ht) fun u hu =>
      hmeet u (Tree.mem_nodesOfAll_of_mem hroot (Tree.mem_nodes_of_child ht hu))
  have hsite : ((Scene.of p []).site p.rootParent (.branch info ts)
      (layOutAll (Scene.of p []) (some info.kind) ts)).Apart letters :=
    apart_site comments_at_nil p.rootParent hchildren
  have hwritten : Shape.Written info.kind ts := by
    rw [hk]
    trivial
  have hself : Tree.branch info ts ∈ (Tree.branch info ts).nodes := Tree.mem_nodes_self _
  have hbare := hsite.bare rfl (hw.shaped _ hroot _ hself) hwritten
    (hmeet _ (Tree.mem_nodesOfAll_of_mem hroot hself))
  rw [layOut]
  exact hbare.map fun d hd => by rwa [wrap_of_comments (comments_at_nil _)]

/-- The document of a source without comments. -/
theorem apart_document (hw : p.WellShaped) (h : p.Written)
    (hmeet : ∀ t ∈ Tree.nodesOfAll p.roots, t.MeetsByAnnotations letters) :
    Ensures (document p []) (Sets letters · (p.roots.flatMap Tree.words)) := by
  by_cases hunit : ∃ root, p.roots = [root] ∧ root.kind = .program
  · obtain ⟨root, hroots, hk⟩ := hunit
    have hprogram := apart_program hw h hmeet (hroots ▸ List.mem_singleton_self root) hk
    rw [document_of_program [] hroots hk, hroots, List.flatMap_singleton]
    exact hprogram
  · have hpieces : ∀ q ∈ layOutAll (Scene.of p []) p.rootParent p.roots, q.Apart letters := by
      intro q hq
      obtain ⟨t, ht, rfl⟩ := exists_of_mem_layOutAll hq
      have hroot := Tree.mem_nodesOfAll_of_mem ht t.mem_nodes_self
      have hk : t.kind ≠ .program := ((h t hroot).resolve_right fun hu => hunit ⟨t, hu⟩).kind
      exact apart_layOut comments_at_nil _ (h.lexed hw hroot hk) fun u hu =>
        hmeet u (Tree.mem_nodesOfAll_of_mem ht hu)
    have hnodes := map_node_layOutAll (Scene.of p []) p.rootParent p.roots
    have hwords : p.roots.flatMap Tree.words =
        wordsOf (layOutAll (Scene.of p []) p.rootParent p.roots) := by
      rw [wordsOf_eq_flatMap, hnodes]
    rw [hwords, document_of_fragment [] hw.roots_ne_nil hunit]
    exact apart_fragmentDoc p hpieces

/-- What is printed of a node that is no compilation unit begins with its first leaf. -/
theorem exists_doc_beginsWith (hw : p.WellShaped) (h : p.Written)
    (hmeet : ∀ t ∈ Tree.nodesOfAll p.roots, t.MeetsByAnnotations letters) {t : Tree}
    (ht : t ∈ Tree.nodesOfAll p.roots) (hk : t.kind ≠ .program) (parent : Option NodeKind) :
    ∃ e, (layOut (Scene.of p []) parent t).doc = .ok e ∧
      ∀ gs, e.Shows gs → BeginsWith t.firstLeaf.text gs := by
  have hlexed := h.lexed hw ht hk
  have hpiece : (layOut (Scene.of p []) parent t).Apart letters :=
    apart_layOut comments_at_nil parent hlexed fun u hu => hmeet u (Tree.mem_nodesOfAll_trans ht hu)
  have hfits : Attachments.Fits [] t := ⟨fun u _ hd => absurd rfl hd, fun _ _ _ _ _ => rfl⟩
  obtain ⟨e, he, -⟩ := (complete_layOut (Scene.of p []) parent t
    (fun u hu => (hlexed u hu).1) hfits).doc
  refine ⟨e, he, fun gs hgs => ?_⟩
  have hlaid := (hpiece.doc e he).free gs hgs
  obtain ⟨w, ws, hwords, htext⟩ := hlexed.exists_words
  rw [node_layOut, hwords] at hlaid
  exact htext ▸ hlaid.beginsWith

/-- A document that sets its words keeps them apart in the output. -/
theorem exists_apart_render (options : Options) {d : Doc} {ws : List Word} (hd : d.Sound False)
    (hsets : Sets letters d ws) (hws : ∀ w ∈ ws, Text.EndsVisibly w.text) :
    ∃ out, render? options d = some out ∧ Apart letters none ws out.toList := by
  obtain ⟨out, gs, hrender, hgs, he⟩ := exists_shown options hd
  have hclosed : Closed [] := by simp [Closed]
  obtain ⟨rest, hout, hapart⟩ := exists_apart (hsets.free gs hgs) hws none [] [] (by simp)
    (fun _ v hv => by cases hv) hclosed he
  refine ⟨out, hrender, ?_⟩
  rw [List.reverse_reverse] at hout
  rw [hout]
  exact hapart

end Source

end Layout

namespace Formatter

open Layout Doc

/-- Neighbouring words never fuse. A source without comments, in which the children of a tight
node meet like identifiers only next to an annotation, is formatted to its leaves with spaces and
line feeds between them, and there is at least one wherever two neighbours would be read as one:
both are parts of identifiers there, or a unary plus or minus is in front of the same sign. This
holds of every width and whatever counts as a letter beyond ASCII. What is printed of a node
begins, but for spaces and breaks, with its first leaf. -/
theorem apart_render_layOut (options : Options) (letters : Char → Bool) {p : Parsed}
    (h : p.WellShaped) (hwritten : p.Written) (hcomments : p.comments = [])
    (hleaves : ∀ w ∈ p.leafTexts, Text.EndsVisibly w)
    (hmeet : ∀ t ∈ Tree.nodesOfAll p.roots, t.MeetsByAnnotations letters) :
    (∃ d out, layOut options p = .ok d ∧ renderDoc options d = .ok out ∧
      Apart letters none (p.roots.flatMap Tree.words) out.toList) ∧
    ∀ t ∈ Tree.nodesOfAll p.roots, t.kind ≠ .program → ∀ parent,
      ∃ e, (Layout.layOut (Scene.of p []) parent t).doc = .ok e ∧
        ∀ gs, e.Shows gs → BeginsWith t.firstLeaf.text gs := by
  refine ⟨?_, fun t ht hk parent => exists_doc_beginsWith h hwritten hmeet ht hk parent⟩
  obtain ⟨d, hd, hweaves⟩ := exists_layOut_of_comments_eq_nil options h hcomments
  have hdocument : document p [] = .ok d := (layOut_eq_ok_iff_of_comments_eq_nil hcomments).mp hd
  have hvisible : ∀ w ∈ p.roots.flatMap Tree.words, Text.EndsVisibly w.text := by
    intro w hw
    obtain ⟨root, hroot, hw⟩ := List.mem_flatMap.mp hw
    refine hleaves w.text (List.mem_flatMap.mpr ⟨root, hroot, ?_⟩)
    rw [← Tree.map_text_words]
    exact List.mem_map_of_mem hw
  obtain ⟨out, hrender, hapart⟩ := exists_apart_render options
    (hweaves.sound.mono fun hne => hne rfl) (apart_document h hwritten hmeet d hdocument) hvisible
  exact ⟨d, out, hd, by rw [renderDoc, hrender], hapart⟩

/-- The minus of a minus of a field. -/
def minusMinus : Parsed :=
  let source := Source.ofText "- -a.b"
  let field := .branch ⟨5, .fieldAccess, none, source.span 3 6⟩ [
    .leaf ⟨2, .identifier, none, source.span 3 4⟩ "a",
    .leaf ⟨3, .token, none, source.span 4 5⟩ ".",
    .leaf ⟨4, .identifier, none, source.span 5 6⟩ "b"]
  let inner := .branch ⟨6, .unaryExpression, none, source.span 2 6⟩ [
    .leaf ⟨1, .token, none, source.span 2 3⟩ "-", field]
  let outer := .branch ⟨7, .unaryExpression, none, source.span 0 6⟩ [
    .leaf ⟨0, .token, none, source.span 0 1⟩ "-", inner]
  ⟨outer, [outer], some .variableDeclarator, [], source⟩

/-- The source with two minus signs is well shaped. -/
theorem wellShaped_minusMinus : minusMinus.WellShaped where
  roots_ne_nil := List.cons_ne_nil _ _
  shaped := by
    have hunary : NodeKind.unaryExpression.isVerbatim = false := rfl
    have hfield : NodeKind.fieldAccess.isVerbatim = false := rfl
    have hverbatim : NodeKind.identifier.isVerbatim = true := rfl
    simp [minusMinus, Tree.Regular, Shape.Allowed, hunary, hfield, hverbatim, Tree.kind, Tree.info]
  numbered := by simp [minusMinus, Tree.nodesOfAll, Tree.nodes, Tree.index, Tree.info]

/-- The nodes are written as the grammar says, and the dot of the field keeps its names apart. -/
theorem written_minusMinus :
    minusMinus.Written ∧
      ∀ t ∈ Tree.nodesOfAll minusMinus.roots, t.MeetsByAnnotations fun _ => false := by
  have hminus : ∀ k : NodeKind, "-" ≠ k.name := by
    intro k
    cases k <;> decide
  have hdot : ∀ k : NodeKind, "." ≠ k.name := by
    intro k
    cases k <;> decide
  have hloose : ∀ {t : Tree}, t.kind.isTight = false → t.MeetsByAnnotations fun _ => false := by
    intro t ht hk
    rw [ht] at hk
    cases hk
  have hall : ∀ t ∈ Tree.nodesOfAll minusMinus.roots,
      t.Written ∧ t.MeetsByAnnotations fun _ => false := by
    intro t ht
    simp only [minusMinus, Tree.nodesOfAll, Tree.nodes, List.append_nil, List.cons_append,
      List.nil_append, List.mem_cons, List.not_mem_nil, or_false] at ht
    rcases ht with rfl | rfl | rfl | rfl | rfl | rfl | rfl | rfl
    · exact ⟨⟨by decide, by decide, fun _ k _ => hminus k, trivial⟩, hloose rfl⟩
    · exact ⟨⟨by decide, by decide, fun _ k _ => hminus k, trivial⟩, hloose rfl⟩
    · exact ⟨⟨by decide, by decide, (absurd · (by decide)), trivial⟩, hloose rfl⟩
    · exact ⟨⟨by decide, by decide, fun _ k _ => hdot k, trivial⟩, hloose rfl⟩
    · exact ⟨⟨by decide, by decide, (absurd · (by decide)), trivial⟩, hloose rfl⟩
    · exact ⟨⟨by decide, by decide, (absurd · (by decide)), trivial⟩, fun _ => by decide⟩
    · exact ⟨⟨by decide, by decide, (absurd · (by decide)), ⟨_, _, rfl, by decide⟩⟩, hloose rfl⟩
    · exact ⟨⟨by decide, by decide, (absurd · (by decide)), ⟨_, _, rfl, by decide⟩⟩, hloose rfl⟩
  exact ⟨fun t ht => .inl (hall t ht).1, fun t ht => (hall t ht).2⟩

/-- There is a gap between the two signs of a minus of a minus. -/
theorem apart_render_layOut_minusMinus :
    minusMinus.WellShaped ∧ minusMinus.Written ∧ minusMinus.comments = [] ∧
      (∀ w ∈ minusMinus.leafTexts, Text.EndsVisibly w) ∧
      (∀ t ∈ Tree.nodesOfAll minusMinus.roots, t.MeetsByAnnotations fun _ => false) ∧
      ∃ d out, layOut {} minusMinus = .ok d ∧ renderDoc {} d = .ok out ∧
        ∃ front gap rest, out.toList = front ++ ('-' :: (gap ++ ('-' :: rest))) ∧ gap ≠ [] ∧
          ∀ c ∈ gap, isSpacing c := by
  obtain ⟨hwritten, hmeet⟩ := written_minusMinus
  have hleaves : ∀ w ∈ minusMinus.leafTexts, Text.EndsVisibly w := by decide
  obtain ⟨⟨d, out, hd, hout, hapart⟩, -⟩ :=
    apart_render_layOut {} (fun _ => false) wellShaped_minusMinus hwritten rfl hleaves hmeet
  have hsigns : Apart (fun _ => false) none
      ([] ++ [⟨"-", true⟩, ⟨"-", true⟩, ⟨"a", false⟩, ⟨".", false⟩, ⟨"b", false⟩])
      out.toList := hapart
  exact ⟨wellShaped_minusMinus, hwritten, rfl, hleaves, hmeet, d, out, hd, hout,
    hsigns.exists_gap (by decide)⟩

end Formatter

end JavaFormat
