import JavaFormat.Error
import JavaFormat.Layout.Remark

/-!
# Pieces of layout

Layout goes from the leaves to the roots. The layout of a node is made of the
pieces of its children, and a piece is all that a parent may ask of a child: the
child itself, its comments, its document, and the chain that it is the last link
of, if it is one, because a parent that goes on with a chain lays out all of its
links alike.

A rule gives the document of a node without the comments that are put to it.
Most rules leave comments inside the node to `Piece.wrapped`; those whose node
can be empty print them themselves.
-/

namespace JavaFormat.Layout

open Doc

/-- An operator with the operand behind it, as a link of a chain. -/
structure OperatorLink where
  /-- The operator and its right operand. -/
  parts : Except ShapeError (String × Doc)
  /-- The comments in front of the expression that ends with this link. -/
  leading : Doc
  /-- The comments behind it. -/
  trailing : Doc

/-- A binary expression with the binary expressions of the same level at its left
end. -/
structure OperatorChain where
  /-- The level of precedence of all operators. -/
  level : Nat
  /-- The leftmost operand. -/
  first : Except ShapeError Doc
  /-- All links but the last, the leftmost one first. -/
  inner : List OperatorLink
  last : OperatorLink

/-- A dot, a name and arguments, as a link of a chain. -/
structure CallLink where
  /-- The call without its receiver. -/
  doc : Except ShapeError Doc
  /-- The comments in front of the call that ends with this link. -/
  leading : Doc
  /-- The comments behind it. -/
  trailing : Doc

/-- A call on a receiver with the calls that the receiver consists of. -/
structure CallChain where
  /-- The kind of the leftmost receiver. -/
  headKind : NodeKind
  /-- The leftmost receiver. -/
  head : Except ShapeError Doc
  /-- All links but the last, the leftmost one first. -/
  inner : List CallLink
  last : CallLink

/-- A node with its layout. -/
structure Piece where
  node : Tree
  comments : NodeComments
  /-- The document of the node without its comments. -/
  bare : Except ShapeError Doc
  /-- The operators of a binary expression. -/
  operators : Option (Except ShapeError OperatorChain)
  /-- The calls of a call that has a receiver. -/
  calls : Option CallChain

/-- What a rule sees: the node, its surroundings and the pieces of its children. -/
structure Site where
  source : Source
  /-- The numbers of the roots. -/
  roots : List Nat
  /-- The kind of the node above. -/
  parent : Option NodeKind
  node : Tree
  comments : NodeComments
  children : List Piece

/-- Whether the rule for a kind prints the comments inside the node itself. -/
def printsDangling : NodeKind → Bool
  | .program | .classBody | .interfaceBody | .annotationTypeBody | .enumBody
  | .formalParameters | .modifiers | .annotationArgumentList | .elementValueArrayInitializer
  | .arrayInitializer | .argumentList | .typeArguments | .typeParameters
  | .recordPatternBody | .block | .constructorBody | .switchBlock | .moduleBody
  | .resourceSpecification => true
  | _ => false

namespace Piece

/-- The kind of the node. -/
def kind (p : Piece) : NodeKind := p.node.kind

/-- The text of the node, if it is a leaf. -/
def text (p : Piece) : String := p.node.text

/-- Whether the node is the anonymous token of the given text. -/
def isToken (p : Piece) (text : String) : Bool := p.node.isToken text

/-- Whether the node has comments. -/
def hasComments (p : Piece) : Bool := !p.comments.isEmpty

/-- Whether a comment behind the node has to end its line. -/
def hasBreakingTrailing (p : Piece) : Bool := p.comments.hasBreakingTrailing

/-- Put the comments of a node around its document, those in front of it only if
`leading` is set. -/
def wrap (p : Piece) (leading : Bool) (d : Doc) : Doc :=
  if p.comments.isEmpty then d
  else
    cat ((if leading && !p.comments.leading.isEmpty then [p.comments.leadingDoc] else []) ++ [d] ++
      (if !p.comments.dangling.isEmpty && !printsDangling p.kind then
        [trailingDoc p.comments.dangling] else []) ++
      (if p.comments.trailing.isEmpty then [] else [trailingDoc p.comments.trailing]))

/-- The document of the node with its comments around it. -/
def doc (p : Piece) : Except ShapeError Doc := p.bare.map (p.wrap true)

/-- The document of the node without the comments in front of it. -/
def docWithoutLeading (p : Piece) : Except ShapeError Doc := p.bare.map (p.wrap false)

end Piece

/-- The documents of several pieces. -/
def docs (pieces : List Piece) : Except ShapeError (List Doc) := pieces.mapM Piece.doc

namespace Site

/-- The pieces of the named children. -/
def named (s : Site) : List Piece := s.children.filter (·.node.isNamed)

/-- The pieces of the children but for braces. -/
def unbraced (s : Site) : List Piece :=
  s.children.filter fun p => !(p.node.text? == some "\x7b" || p.node.text? == some "\x7d")

end Site

end JavaFormat.Layout
