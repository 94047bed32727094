import JavaFormat.Layout.Spacing

/-!
# Lists between delimiters

The items of a list stand on one line, or one a line if they do not fit. A
separator behind the last item is kept. Lists of literals are filled instead,
unless an item has comments; there a separator stays with the item in front of
it, so that no line ends past the width because of it.
-/

namespace JavaFormat.Layout

open Doc

/-- How a list is written. -/
structure ListStyle where
  opening : String
  closing : String
  /-- Whether there is a space inside the delimiters. -/
  padded : Bool := false
  /-- Whether lines are filled. -/
  filled : Bool := false
  separator : String := ","

/-- A list between parentheses. -/
def ListStyle.parenthesized : ListStyle := { opening := "(", closing := ")" }

/-- A list between braces. -/
def ListStyle.braced : ListStyle := { opening := "\x7b", closing := "\x7d", padded := true }

/-- Whether the source has a separator behind the last item. -/
def hasTrailingSeparator (node : Tree) (separator : String) : Bool :=
  match node.children.reverse with
  | _ :: t :: _ => t.isToken separator
  | _ => false

/-- The parts of a fill: each document but the last with its separator. -/
def fillParts (separator : String) : List Doc → List Doc
  | [] => []
  | [d] => [d]
  | d :: ds => cat [d, separator] :: space :: fillParts separator ds

/-- A list without the separator behind its last item. -/
def listBody (style : ListStyle) (items : List Piece) (docs : List Doc) : Doc :=
  if style.filled && !items.any Piece.hasComments then .fill (fillParts style.separator docs)
  else join (cat [style.separator, space]) docs

/-- The named children of a node as a list between delimiters. -/
def Site.delimited (s : Site) (style : ListStyle) : Except ShapeError Doc := do
  if s.named.isEmpty then
    return cat [style.opening, s.comments.danglingInline, style.closing]
  let docs ← docs s.named
  let body := listBody style s.named docs
  let body :=
    if hasTrailingSeparator s.node style.separator then cat [body, style.separator] else body
  let edge := if style.padded then space else softline
  return grouped [style.opening, indented [edge, body], edge, style.closing]

/-- Type arguments, which are never broken. -/
def Site.typeArguments (s : Site) : Except ShapeError Doc := do
  let docs ← docs s.named
  if s.named.isEmpty then return cat ["<", s.comments.danglingInline, ">"]
  return cat ["<", join ", " docs, ">"]

/-- The initializer of an array: filled if it holds nothing but literals. -/
def Site.arrayInitializer (s : Site) : Except ShapeError Doc :=
  s.delimited { ListStyle.braced with filled := s.named.all (·.kind.isLiteral) }

end JavaFormat.Layout
