import JavaFormat.Layout.Piece

/-!
# Children on one line

Neighbours on a line are separated by one space, unless one of them is tight on
that side. A line ends between them only where a comment behind the first one has
to end it, or behind a list of modifiers whose last annotation has a line of its
own in the source.
-/

namespace JavaFormat.Layout

open Doc

/-- What a node is called where spacing is decided: a token by its text, any other
node by the grammar's name. -/
def spacingKey (t : Tree) : String :=
  match t with
  | .leaf info written => if info.kind = .token then written else info.kind.name
  | .branch info _ => info.kind.name

/-- Which neighbours are printed without a space between them. -/
structure Spacing where
  /-- No space in front of these. -/
  tightBefore : List String
  /-- No space behind these. -/
  tightAfter : List String

namespace Spacing

/-- The spacing of most constructs. -/
def standard : Spacing where
  tightBefore := [";", ",", ")", "]", ".", "...", "::", NodeKind.argumentList.name,
    NodeKind.formalParameters.name, NodeKind.dimensions.name, NodeKind.dimensionsExpr.name,
    NodeKind.annotationArgumentList.name]
  tightAfter := ["(", "[", ".", "@", "::"]

/-- The same spacing with more nodes tight in front. -/
def withTightBefore (s : Spacing) (keys : List String) : Spacing :=
  { s with tightBefore := keys ++ s.tightBefore }

/-- The same spacing with more nodes tight behind. -/
def withTightAfter (s : Spacing) (keys : List String) : Spacing :=
  { s with tightAfter := keys ++ s.tightAfter }

/-- Whether there is no space between two neighbours. -/
def isTight (s : Spacing) (previous following : Tree) : Bool :=
  s.tightAfter.contains (spacingKey previous) || s.tightBefore.contains (spacingKey following)

/-- The spacing of methods and constructors. -/
def ofMethod : Spacing := standard.withTightBefore ["("]

/-- The spacing of the head of a type declaration. -/
def ofTypeHead : Spacing := standard.withTightBefore [NodeKind.typeParameters.name]

/-- The spacing of a labeled statement. -/
def ofLabel : Spacing := standard.withTightBefore [":"]

end Spacing

/-- Owners of modifiers that keep annotations on their own line. -/
def keepsAnnotationsInline : NodeKind → Bool
  | .formalParameter | .spreadParameter | .catchFormalParameter | .resource
  | .enhancedForStatement | .localVariableDeclaration | .recordPatternComponent | .typePattern
  | .lambdaExpression => true
  | _ => false

/-- Whether a modifier is an annotation with a line of its own: what follows it
begins on a later line of the source. `owner` is the kind of the node that the
modifiers belong to. -/
def annotationOnOwnLine (owner : Option NodeKind) (item : Tree) (following : Option Tree) : Bool :=
  item.kind.isAnnotationUse && !owner.any keepsAnnotationsInline &&
    following.any fun next => decide (item.span.stop.line < next.span.start.line)

/-- Whether the last comment inside a list of modifiers is a line comment behind
the last modifier. -/
def endsWithLineComment (comments : NodeComments) (lastItem : Tree) : Bool :=
  comments.dangling.getLast?.any fun a =>
    a.comment.isLine && decide (lastItem.span.stop.offset ≤ a.comment.span.start.offset)

/-- What goes behind a list of modifiers. -/
def modifiersSeparator (owner : Option NodeKind) (modifiers : Tree) (comments : NodeComments)
    (following : Option Tree) : Doc :=
  match modifiers.children.getLast? with
  | none => " "
  | some item =>
    if endsWithLineComment comments item || annotationOnOwnLine owner item following then hardline
    else " "

/-- What goes between two pieces printed on one line. `owner` is the kind of the
node above the first, and `sibling` is the node next to it. -/
def separator (owner : Option NodeKind) (spacing : Spacing) (sibling : Option Tree)
    (previous following : Piece) : Doc :=
  if spacing.tightBefore.contains (spacingKey following.node) then ""
  else if previous.hasBreakingTrailing then hardline
  else if previous.kind = .modifiers then
    modifiersSeparator owner previous.node previous.comments sibling
  else if spacing.tightAfter.contains (spacingKey previous.node) then ""
  else " "

/-- The parts of a line that follow `previous` on it. -/
def sequenceAfter (owner : NodeKind) (spacing : Spacing) (previous : Piece) :
    List Piece → Except ShapeError (List Doc)
  | [] => return []
  | p :: ps => do
    let d ← p.doc
    let rest ← sequenceAfter owner spacing p ps
    return separator (some owner) spacing (some p.node) previous p :: d :: rest

/-- Children of a node of kind `owner` on one line. -/
def sequence (owner : NodeKind) (spacing : Spacing) : List Piece → Except ShapeError Doc
  | [] => return cat []
  | p :: ps => do
    let d ← p.doc
    let rest ← sequenceAfter owner spacing p ps
    return cat (d :: rest)

/-- All children of a node on one line. -/
def Site.sequence (s : Site) (spacing : Spacing) : Except ShapeError Doc :=
  Layout.sequence s.node.kind spacing s.children

/-- Whether there is a space between two neighbours of a tight construct: only
next to annotations, but not between a dot and an annotation. -/
def isSpacedByAnnotation (previous following : Piece) : Bool :=
  previous.kind.isAnnotationUse || (following.kind.isAnnotationUse && !previous.isToken ".")

/-- The parts of a tight construct that follow `previous`. -/
def tightAfter (previous : Piece) : List Piece → Except ShapeError (List Doc)
  | [] => return []
  | p :: ps => do
    let d ← p.doc
    let rest ← tightAfter p ps
    let space : List Doc := if isSpacedByAnnotation previous p then [" "] else []
    return space ++ d :: rest

/-- Children without anything between them. -/
def tight : List Piece → Except ShapeError Doc
  | [] => return cat []
  | p :: ps => do
    let d ← p.doc
    let rest ← tightAfter p ps
    return cat (d :: rest)

/-- What goes between a block and a keyword that goes on with its statement. -/
def continuation (previous : Piece) : Doc := if previous.hasBreakingTrailing then hardline else " "

end JavaFormat.Layout
