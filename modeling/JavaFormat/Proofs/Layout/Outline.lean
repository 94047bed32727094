import JavaFormat.Layout.Rule
import JavaFormat.Proofs.Layout.Settled
import Mathlib.Data.List.Basic

/-!
# Layout without positions

The outline of a tree is the tree without its positions, and that of a comment has of its
surroundings only what is printed of them. Almost every rule of the layout gives the
same document for the outline of its site; those that look at positions are elsewhere.
-/

namespace JavaFormat

/-! ## Outlines -/

/-- No place in particular. -/
def Span.nowhere : Span := ⟨⟨0, 0, 0⟩, ⟨0, 0, 0⟩⟩

/-- What is known of a node but for its place. -/
def NodeInfo.outline (info : NodeInfo) : NodeInfo := { info with span := .nowhere }

namespace Tree

mutual

/-- A tree without positions. -/
def outline : Tree → Tree
  | .leaf info text => .leaf info.outline text
  | .branch info children => .branch info.outline (outlineOfAll children)

/-- Several trees without positions. -/
def outlineOfAll : List Tree → List Tree
  | [] => []
  | t :: ts => t.outline :: outlineOfAll ts

end

/-- The outline of several nodes is that of each. -/
theorem outlineOfAll_eq_map (ts : List Tree) : outlineOfAll ts = ts.map outline := by
  induction ts with
  | nil => rfl
  | cons t ts ih => rw [outlineOfAll, ih, List.map_cons]

section Outline

variable (t : Tree)

/-- An outline keeps the number of the node. -/
@[simp] theorem index_outline : t.outline.index = t.index := by cases t <;> rfl

/-- An outline keeps the kind of the node. -/
@[simp] theorem kind_outline : t.outline.kind = t.kind := by cases t <;> rfl

/-- An outline keeps the text of a leaf. -/
@[simp] theorem text?_outline : t.outline.text? = t.text? := by cases t <;> rfl

/-- An outline keeps the text, which is empty for a node with children. -/
@[simp] theorem text_outline : t.outline.text = t.text := by simp [text]

/-- An outline is named if its node is. -/
@[simp] theorem isNamed_outline : t.outline.isNamed = t.isNamed := by simp [isNamed]

/-- An outline is a token if its node is. -/
@[simp] theorem isToken_outline (text : String) : t.outline.isToken text = t.isToken text := by
  simp [isToken]

/-- The children of an outline are the outlines of the children. -/
@[simp] theorem children_outline : t.outline.children = t.children.map outline := by
  cases t with
  | leaf => rfl
  | branch info ts => exact outlineOfAll_eq_map ts

/-- The first child of some kinds has an outline. -/
@[simp] theorem firstOf?_outline (kinds : List NodeKind) :
    t.outline.firstOf? kinds = (t.firstOf? kinds).map outline := by
  simp only [firstOf?, children_outline, List.find?_map, Function.comp_def, kind_outline]

end Outline

/-- Going down to the left leads to the same text. -/
@[simp] theorem text_firstLeaf_outline : ∀ t : Tree, t.outline.firstLeaf.text = t.firstLeaf.text
  | .leaf _ _ => rfl
  | .branch _ [] => rfl
  | .branch _ (child :: _) => by
    simp only [outline, outlineOfAll, firstLeaf]
    exact text_firstLeaf_outline child

mutual

/-- The nodes of an outline are the outlines of the nodes. -/
theorem nodes_outline : ∀ t : Tree, t.outline.nodes = t.nodes.map outline
  | .leaf _ _ => rfl
  | .branch info ts => by
    rw [outline, nodes, nodes, nodesOfAll_outlineOfAll ts, List.map_append, List.map_singleton,
      outline]

/-- The nodes of the outlines of several trees are the outlines of their nodes. -/
theorem nodesOfAll_outlineOfAll : ∀ ts : List Tree,
    nodesOfAll (outlineOfAll ts) = (nodesOfAll ts).map outline
  | [] => rfl
  | t :: ts => by
    rw [outlineOfAll, nodesOfAll, nodesOfAll, nodes_outline t, nodesOfAll_outlineOfAll ts,
      List.map_append]

end

/-- Trees with the same outline have equally many nodes. -/
theorem length_nodes_eq_of_outline {t u : Tree} (h : t.outline = u.outline) :
    t.nodes.length = u.nodes.length := by
  rw [← List.length_map outline, ← nodes_outline, h, nodes_outline, List.length_map]

end Tree

/-- A comment without its place, and without its indentation if it is indented anew. -/
def Comment.outline (c : Comment) : Comment := { c.settled with span := .nowhere }

/-- The outline of a comment in front of a node: it does not matter what is above it, but whether
there are blank lines below it. -/
def AttachedComment.outlineAbove (a : AttachedComment) : AttachedComment :=
  { a with
    comment := a.comment.outline
    blankLinesBefore := 0
    blankLinesAfter := min a.blankLinesAfter 1
    ownLine := true }

/-- The outline of a comment behind a node: it does not matter what is below it, but whether it has
a line of its own and there are blank lines above it. -/
def AttachedComment.outlineBehind (a : AttachedComment) : AttachedComment :=
  { a with
    comment := a.comment.outline
    blankLinesBefore := min a.blankLinesBefore 1
    blankLinesAfter := 0
    breaksAfter := true }

/-- The outline of a comment inside a node: it only matters whether there are blank lines above it.
-/
def AttachedComment.outlineInside (a : AttachedComment) : AttachedComment :=
  { a.outlineBehind with ownLine := true }

/-- The comments of a node of some kind without their places. Those inside the node are printed
behind it if the rule for the kind does not print them; if it does, no blank lines are printed above
the first one. -/
def NodeComments.outline (k : NodeKind) (c : NodeComments) : NodeComments where
  leading := c.leading.map AttachedComment.outlineAbove
  trailing := c.trailing.map AttachedComment.outlineBehind
  dangling :=
    if Layout.printsDangling k then
      (c.dangling.map AttachedComment.outlineInside).modifyHead ({ · with blankLinesBefore := 0 })
    else c.dangling.map AttachedComment.outlineBehind

/-- A comment is printed alike without its position. -/
theorem Comment.doc_outline (c : Comment) : c.outline.doc = c.doc := c.doc_settled

namespace AttachedComment

variable (a : AttachedComment)

/-- In front of a node a comment is printed by its outline. -/
@[simp] theorem leadingParts_outlineAbove : a.outlineAbove.leadingParts = a.leadingParts := by
  have hdoc : a.outlineAbove.comment.doc = a.comment.doc := a.comment.doc_outline
  have hblank : min a.blankLinesAfter 1 = 0 ↔ a.blankLinesAfter = 0 := by omega
  rw [leadingParts, leadingParts, hdoc]
  simp only [outlineAbove, hblank]

/-- Behind a node a comment is printed by its outline. -/
@[simp] theorem trailingParts_outlineBehind : a.outlineBehind.trailingParts = a.trailingParts := by
  have hdoc : a.outlineBehind.comment.doc = a.comment.doc := a.comment.doc_outline
  have hline : a.outlineBehind.comment.isLine = a.comment.isLine := rfl
  have hblank : min a.blankLinesBefore 1 = 0 ↔ a.blankLinesBefore = 0 := by omega
  rw [trailingParts, trailingParts, hdoc, hline]
  simp only [outlineBehind, hblank]

/-- Inside a node a comment is printed by its outline. -/
@[simp] theorem danglingParts_outlineInside : a.outlineInside.danglingParts = a.danglingParts := by
  have hdoc : a.outlineInside.comment.doc = a.comment.doc := a.comment.doc_outline
  have hblank : min a.blankLinesBefore 1 = 0 ↔ a.blankLinesBefore = 0 := by omega
  rw [danglingParts, danglingParts, hdoc]
  simp only [outlineInside, outlineBehind, hblank]

end AttachedComment

/-- The comments behind a node are printed by their outlines. -/
@[simp] theorem trailingDoc_outlineBehind (comments : List AttachedComment) :
    trailingDoc (comments.map AttachedComment.outlineBehind) = trailingDoc comments := by
  simp [trailingDoc, List.flatMap_map]

/-- On one line comments are printed whatever is around them. -/
theorem inlineParts_eq {as bs : List AttachedComment}
    (h : as.map (·.comment) = bs.map (·.comment.outline)) : inlineParts as = inlineParts bs := by
  induction as generalizing bs with
  | nil => rw [List.map_eq_nil_iff.mp h.symm]
  | cons a as ih =>
    obtain ⟨b, bs, rfl, hb, hbs⟩ := List.map_eq_cons_iff.mp h.symm
    have hempty : as.isEmpty = bs.isEmpty := by simpa using congrArg List.isEmpty hbs.symm
    have hself : a.comment = b.comment.outline := hb.symm
    have hline : b.comment.outline.isLine = b.comment.isLine := rfl
    rw [inlineParts, inlineParts, hself, b.comment.doc_outline, hline, ih hbs.symm, hempty]

namespace NodeComments

variable (k : NodeKind) (c : NodeComments)

/-- The comments in front are outlined one by one. -/
@[simp] theorem leading_outline :
    (c.outline k).leading = c.leading.map AttachedComment.outlineAbove := rfl

/-- The comments behind are outlined one by one. -/
@[simp] theorem trailing_outline :
    (c.outline k).trailing = c.trailing.map AttachedComment.outlineBehind := rfl

/-- The comments inside are outlined one by one but for what is around them. -/
theorem map_comment_dangling_outline :
    (c.outline k).dangling.map (·.comment) = c.dangling.map (·.comment.outline) := by
  rw [outline]
  split
  · cases c.dangling with
    | nil => rfl
    | cons a as => simp [Function.comp_def, AttachedComment.outlineInside,
        AttachedComment.outlineBehind]
  · simp [Function.comp_def, AttachedComment.outlineBehind]

/-- The outline has comments inside if the node has. -/
@[simp] theorem isEmpty_dangling_outline :
    (c.outline k).dangling.isEmpty = c.dangling.isEmpty := by
  have hempty := congrArg List.isEmpty (map_comment_dangling_outline k c)
  simpa using hempty

/-- An outline has no comments if the node has none. -/
@[simp] theorem isEmpty_outline : (c.outline k).isEmpty = c.isEmpty := by
  simp only [isEmpty, isEmpty_dangling_outline, leading_outline, trailing_outline,
    List.isEmpty_map]

/-- Whether a comment behind a node ends the line is told by the outlines. -/
@[simp] theorem hasBreakingTrailing_outline :
    (c.outline k).hasBreakingTrailing = c.hasBreakingTrailing := by
  rw [hasBreakingTrailing, hasBreakingTrailing, trailing_outline, List.any_map]
  rfl

/-- The comments in front of a node are printed by their outlines. -/
@[simp] theorem leadingDoc_outline : (c.outline k).leadingDoc = c.leadingDoc := by
  simp [leadingDoc, List.flatMap_map]

/-- The comments inside a node are printed on one line by their outlines. -/
@[simp] theorem danglingInline_outline : (c.outline k).danglingInline = c.danglingInline := by
  rw [danglingInline, danglingInline, inlineParts_eq (map_comment_dangling_outline k c)]

/-- The comments inside a node are printed as a block by their outlines. -/
@[simp] theorem danglingBlock?_outline : (c.outline k).danglingBlock? = c.danglingBlock? := by
  have hdoc : ∀ a : AttachedComment, a.outlineBehind.comment.doc = a.comment.doc :=
    fun a => a.comment.doc_outline
  have hinside : ∀ a : AttachedComment, a.outlineInside.comment.doc = a.comment.doc :=
    fun a => a.comment.doc_outline
  have hparts : ∀ a : AttachedComment, a.outlineBehind.danglingParts = a.danglingParts :=
    fun a => a.danglingParts_outlineInside
  cases hk : Layout.printsDangling k <;> cases hlist : c.dangling <;>
    simp [danglingBlock?, outline, hk, hlist, List.flatMap_map, hdoc, hinside, hparts]

/-- The comments inside a node that its rule does not print are printed behind it by their
outlines. -/
theorem trailingDoc_dangling_outline (h : Layout.printsDangling k = false) :
    trailingDoc (c.outline k).dangling = trailingDoc c.dangling := by
  rw [outline, h]
  exact trailingDoc_outlineBehind c.dangling

end NodeComments

namespace Layout

/-- A piece without positions. -/
def Piece.outline (p : Piece) : Piece :=
  { p with node := p.node.outline, comments := p.comments.outline p.kind }

namespace Piece

variable (p : Piece)

/-- The outline of a piece is about the outline of its node. -/
@[simp] theorem node_outline : p.outline.node = p.node.outline := rfl

/-- The outline of a piece has the outlines of its comments. -/
@[simp] theorem comments_outline : p.outline.comments = p.comments.outline p.kind := rfl

/-- The outline of a piece keeps the operators that go on in it. -/
@[simp] theorem operators_outline : p.outline.operators = p.operators := rfl

/-- The outline of a piece keeps the calls that go on in it. -/
@[simp] theorem calls_outline : p.outline.calls = p.calls := rfl

/-- The outline of a piece keeps its kind. -/
@[simp] theorem kind_outline : p.outline.kind = p.kind := by simp [kind]

/-- The outline of a piece keeps its text. -/
@[simp] theorem text_outline : p.outline.text = p.text := by simp [text]

/-- The outline of a piece is a token if the piece is. -/
@[simp] theorem isToken_outline (text : String) : p.outline.isToken text = p.isToken text := by
  simp [isToken]

/-- The outline of a piece has comments if the piece has. -/
@[simp] theorem hasComments_outline : p.outline.hasComments = p.hasComments := by
  simp [hasComments]

/-- Whether a comment behind a piece ends the line is told by its outline. -/
@[simp] theorem hasBreakingTrailing_outline :
    p.outline.hasBreakingTrailing = p.hasBreakingTrailing := by
  simp [hasBreakingTrailing]

/-- The outline of a piece puts the same comments around a document. -/
@[simp] theorem wrap_outline (leading : Bool) (d : Doc) :
    p.outline.wrap leading d = p.wrap leading d := by
  have hprinted : printsDangling p.kind = false → trailingDoc p.outline.comments.dangling =
      trailingDoc p.comments.dangling := p.comments.trailingDoc_dangling_outline p.kind
  cases hk : printsDangling p.kind with
  | true => simp [wrap, hk]
  | false =>
    rw [wrap, wrap, hprinted hk]
    simp [hk]

/-- The outline of a piece is printed alike. -/
@[simp] theorem doc_outline : p.outline.doc = p.doc := by
  have hwrap : p.outline.wrap true = p.wrap true := funext (p.wrap_outline true)
  rw [doc, doc, hwrap]
  rfl

/-- The outline of a piece is printed alike without the comments in front. -/
@[simp] theorem docWithoutLeading_outline : p.outline.docWithoutLeading = p.docWithoutLeading := by
  have hwrap : p.outline.wrap false = p.wrap false := funext (p.wrap_outline false)
  rw [docWithoutLeading, docWithoutLeading, hwrap]
  rfl

end Piece

/-- The outlines of pieces are printed alike. -/
@[simp] theorem docs_outline (ps : List Piece) : docs (ps.map Piece.outline) = docs ps := by
  induction ps with
  | nil => rfl
  | cons p ps ih =>
    simp only [docs, List.map_cons, List.mapM_cons, Piece.doc_outline] at ih ⊢
    rw [ih]

/-- A site without positions. -/
def Site.outline (s : Site) : Site :=
  { s with
    source := ⟨[]⟩
    node := s.node.outline
    comments := s.comments.outline s.node.kind
    children := s.children.map Piece.outline }

namespace Site

variable (s : Site)

/-- The outline of a site keeps the roots. -/
@[simp] theorem roots_outline : s.outline.roots = s.roots := rfl

/-- The outline of a site keeps the parent. -/
@[simp] theorem parent_outline : s.outline.parent = s.parent := rfl

/-- The outline of a site is about the outline of its node. -/
@[simp] theorem node_outline : s.outline.node = s.node.outline := rfl

/-- The outline of a site has the outlines of its comments. -/
@[simp] theorem comments_outline : s.outline.comments = s.comments.outline s.node.kind := rfl

/-- The children of an outlined site are the outlines of its children. -/
@[simp] theorem children_outline : s.outline.children = s.children.map Piece.outline := rfl

/-- The named children of an outlined site are the outlines of its named children. -/
@[simp] theorem named_outline : s.outline.named = s.named.map Piece.outline := by
  simp [named, List.filter_map, Function.comp_def]

end Site

/-! ## Rules without positions -/

section Rules

variable (s : Site)

/-- An outline has the spacing key of its node. -/
@[simp] theorem spacingKey_outline (t : Tree) : spacingKey t.outline = spacingKey t := by
  cases t <;> rfl

/-- An outline is spacious if its node is. -/
@[simp] theorem isSpacious_outline (t : Tree) : isSpacious t.outline = isSpacious t := by
  simp [isSpacious]

/-- An outline has a trailing separator if its node has. -/
@[simp] theorem hasTrailingSeparator_outline (t : Tree) (text : String) :
    hasTrailingSeparator t.outline text = hasTrailingSeparator t text := by
  rw [hasTrailingSeparator, hasTrailingSeparator, Tree.children_outline, ← List.map_reverse]
  generalize t.children.reverse = ts
  rcases ts with _ | ⟨_, _ | _⟩ <;> simp

/-- The body of a list is made of the outlines of its items. -/
@[simp] theorem listBody_outline (style : ListStyle) (items : List Piece) (ds : List Doc) :
    listBody style (items.map Piece.outline) ds = listBody style items ds := by
  simp [listBody, List.any_map, Function.comp_def]

/-- A delimited list is made of its outline. -/
theorem delimited_outline (style : ListStyle) : s.outline.delimited style = s.delimited style := by
  simp [Site.delimited]

/-- Type arguments are made of their outline. -/
theorem typeArguments_outline : s.outline.typeArguments = s.typeArguments := by
  simp [Site.typeArguments]

/-- The initializer of an array is made of its outline. -/
theorem arrayInitializer_outline : s.outline.arrayInitializer = s.arrayInitializer := by
  simp [Site.arrayInitializer, delimited_outline, List.all_map, Function.comp_def]

/-- An outline is huggable if its node is. -/
@[simp] theorem isHuggable_outline (t : Tree) : isHuggable t.outline = isHuggable t := by
  simp only [isHuggable, Tree.kind_outline, Tree.children_outline, List.getLast?_map]
  cases t.children.getLast? <;> simp

/-- Whether one of several arguments is huggable is told by their outlines. -/
@[simp] theorem anyHuggable_outline (ps : List Piece) :
    anyHuggable (ps.map Piece.outline) = anyHuggable ps := by
  induction ps with
  | nil => rfl
  | cons p ps ih => simp [anyHuggable, ih]

/-- Whether the last argument is hugged is told by the outlines. -/
@[simp] theorem hugsLast_outline (ps : List Piece) :
    hugsLast (ps.map Piece.outline) = hugsLast ps := by
  simp only [hugsLast, List.getLast?_map, ← List.map_dropLast, anyHuggable_outline, List.any_map]
  cases ps.getLast? <;> simp [Function.comp_def]

/-- The arguments of a call are made of their outline. -/
theorem arguments_outline : s.outline.arguments = s.arguments := by
  simp [Site.arguments, delimited_outline]

/-- The parts of a call are told by their outlines. -/
@[simp] theorem callParts_outline (ps : List Piece) :
    callParts (ps.map Piece.outline) = callParts ps := by
  induction ps with
  | nil => rfl
  | cons p ps ih => simp [callParts, ih]

/-- A call is made of the outlines of its pieces. -/
@[simp] theorem callDoc_outline (ps : List Piece) :
    callDoc (ps.map Piece.outline) = callDoc ps := by
  rw [callDoc, callDoc, ← List.map_drop, callParts_outline]

/-- The receiver of a call among outlines is the outline of the receiver. -/
@[simp] theorem receiver?_outline (ps : List Piece) :
    receiver? (ps.map Piece.outline) = (receiver? ps).map Piece.outline := by
  rcases ps with _ | ⟨p, _ | ⟨q, ps⟩⟩
  · rfl
  · rfl
  · simp only [List.map_cons, receiver?, Piece.isToken_outline]
    split <;> rfl

/-- A link of a chain of calls is made of the outlines of its pieces. -/
@[simp] theorem callLink_outline (k : NodeKind) (c : NodeComments) (ps : List Piece) :
    callLink (c.outline k) (ps.map Piece.outline) = callLink c ps := by
  simp [callLink]

/-- A chain of calls is made of the outlines of its pieces. -/
@[simp] theorem callChain?_outline (k : NodeKind) (c : NodeComments) (ps : List Piece) :
    callChain? (c.outline k) (ps.map Piece.outline) = callChain? c ps := by
  simp [callChain?, Function.comp_def]

/-- Whether an annotation sets two pieces apart is told by their outlines. -/
@[simp] theorem isSpacedByAnnotation_outline (p q : Piece) :
    isSpacedByAnnotation p.outline q.outline = isSpacedByAnnotation p q := by
  unfold isSpacedByAnnotation
  simp

/-- Pieces behind another one are printed tight by their outlines. -/
theorem tightAfter_outline (previous : Piece) (ps : List Piece) :
    tightAfter previous.outline (ps.map Piece.outline) = tightAfter previous ps := by
  induction ps generalizing previous with
  | nil => rfl
  | cons p ps ih => simp [tightAfter, ih]

/-- Pieces are printed tight by their outlines. -/
@[simp] theorem tight_outline (ps : List Piece) : tight (ps.map Piece.outline) = tight ps := by
  cases ps with
  | nil => rfl
  | cons p ps => simp [tight, tightAfter_outline]

/-- The invocation of a method is made of its outline. -/
theorem methodInvocation_outline : s.outline.methodInvocation = s.methodInvocation := by
  simp [Site.methodInvocation]

/-- An assignment is made of the outline of its right side. -/
@[simp] theorem assignment_outline (left : Doc) (operator : String) (right : Piece) :
    Layout.assignment left operator right.outline = Layout.assignment left operator right := by
  simp [Layout.assignment]

/-- An assignment expression is made of its outline. -/
theorem assignmentExpression_outline : s.outline.assignment = s.assignment := by
  unfold Site.assignment
  rw [Site.children_outline]
  rcases s.children with _ | ⟨_, _ | ⟨_, _ | ⟨_, _ | _⟩⟩⟩ <;> simp

/-- A declarator is made of its outline. -/
theorem variableDeclarator_outline : s.outline.variableDeclarator = s.variableDeclarator := by
  simp only [Site.variableDeclarator, Site.children_outline, List.takeWhile_map, List.dropWhile_map,
    docs_outline, Function.comp_def, Piece.isToken_outline]
  generalize s.children.dropWhile _ = right
  rcases right with _ | ⟨_, _ | ⟨_, _⟩⟩ <;> simp

/-- The parts of a binary expression are told by their outlines. -/
@[simp] theorem operatorParts_outline (ps : List Piece) :
    operatorParts (ps.map Piece.outline) = operatorParts ps := by
  rcases ps with _ | ⟨_, _ | ⟨_, _ | ⟨_, _ | _⟩⟩⟩ <;> simp [operatorParts]

/-- A link of a chain of operators is made of the outlines of its pieces. -/
@[simp] theorem operatorLink_outline (k : NodeKind) (c : NodeComments) (ps : List Piece) :
    operatorLink (c.outline k) (ps.map Piece.outline) = operatorLink c ps := by
  simp [operatorLink]

/-- A chain of operators is extended by outlines alike. -/
@[simp] theorem extendChain_outline (level : Nat) (left : Piece) (link : OperatorLink) :
    extendChain level left.outline link = extendChain level left link := by
  simp [extendChain]

/-- A chain of operators is made of the outlines of its pieces. -/
@[simp] theorem operatorChain_outline (k : NodeKind) (c : NodeComments) (ps : List Piece) :
    operatorChain (c.outline k) (ps.map Piece.outline) = operatorChain c ps := by
  have hlink := operatorLink_outline k c ps
  rcases ps with _ | ⟨_, _ | ⟨_, _⟩⟩
  · rfl
  · rfl
  · rw [List.map_cons, List.map_cons] at hlink ⊢
    simp [operatorChain, hlink]

/-- A binary expression is made of its outline. -/
theorem binary_outline : s.outline.binary = s.binary := by
  simp [Site.binary]

/-- A conditional expression is made of its outline. -/
theorem ternary_outline : s.outline.ternary = s.ternary := by
  unfold Site.ternary
  rw [Site.children_outline]
  rcases s.children with _ | ⟨_, _ | ⟨_, _ | ⟨_, _ | ⟨_, _ | ⟨_, _ | _⟩⟩⟩⟩⟩ <;> simp

/-- A parenthesized expression is made of its outline. -/
theorem parenthesized_outline : s.outline.parenthesized = s.parenthesized := by
  simp [Site.parenthesized]

/-- A unary expression is made of its outline. -/
theorem unary_outline : s.outline.unary = s.unary := by
  unfold Site.unary
  rw [Site.children_outline]
  rcases s.children with _ | ⟨_, _ | ⟨_, _ | _⟩⟩ <;> simp

/-- What continues a statement behind a piece is told by its outline. -/
@[simp] theorem continuation_outline (p : Piece) : continuation p.outline = continuation p := by
  simp [continuation]

/-- Whether pieces end with a break is told by their outlines. -/
@[simp] theorem endsWithBreak_outline (ps : List Piece) :
    endsWithBreak (ps.map Piece.outline) = endsWithBreak ps := by
  simp only [endsWithBreak, ← List.map_reverse, List.find?_map, Function.comp_def,
    Piece.node_outline, Tree.isNamed_outline]
  cases ps.reverse.find? (·.node.isNamed) <;> simp

/-- A header and its body are made of their outlines. -/
@[simp] theorem headedBody_outline (header : List Piece) (body : Piece) :
    headedBody (header.map Piece.outline) body.outline = headedBody header body := by
  simp only [headedBody, Piece.kind_outline, Piece.isToken_outline, Piece.doc_outline,
    endsWithBreak_outline, List.getLast?_map]
  cases header.getLast? <;> simp

/-- What stands in front of a keyword is told by the outline of the piece. -/
@[simp] theorem beforeKeyword_outline (p : Piece) : beforeKeyword p.outline = beforeKeyword p := by
  simp [beforeKeyword]

/-- An alternative is made of the outlines of its keyword and its piece. -/
@[simp] theorem alternativeParts_outline (keyword alternative : Piece) :
    alternativeParts keyword.outline alternative.outline =
      alternativeParts keyword alternative := by
  have hbody := headedBody_outline [keyword] alternative
  rw [List.map_singleton] at hbody
  simp [alternativeParts, hbody]

/-- The parts of an alternative are made of the outlines of the pieces. -/
@[simp] theorem elseParts_outline (consequence : Piece) (ps : List Piece) :
    elseParts consequence.outline (ps.map Piece.outline) = elseParts consequence ps := by
  rcases ps with _ | ⟨_, _ | ⟨_, _⟩⟩ <;> simp [elseParts]

/-- A conditional statement is made of its outline. -/
theorem ifStatement_outline : s.outline.ifStatement = s.ifStatement := by
  unfold Site.ifStatement
  rw [Site.children_outline]
  rcases s.children with _ | ⟨keyword, _ | ⟨condition, _ | ⟨consequence, more⟩⟩⟩
  · simp
  · simp
  · simp
  · have hbody := headedBody_outline [keyword, condition] consequence
    simp only [List.map_cons, List.map_nil] at hbody
    simp [hbody]

/-- The dimensions of an array are made of their outline. -/
theorem dimensions_outline : s.outline.dimensions = s.dimensions := by
  simp only [Site.dimensions, Site.children_outline, tight_outline, Site.node_outline,
    Tree.children_outline, List.head?_map]
  cases s.node.children.head? <;> simp

end Rules

end Layout

end JavaFormat
