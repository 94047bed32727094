import JavaFormat.Layout.Members

/-!
# Declarations of types

The head of a type stands on one line; its clauses follow on the same line or
one a line, and its body behind them. The constants of an enumeration stand one a
line, each with the comma behind it.
-/

namespace JavaFormat.Layout

open Doc

/-- The parts of the declaration of a type. -/
structure TypeParts where
  /-- The modifiers, with what goes behind them. -/
  modifiers : List Doc := []
  /-- The keyword, the name and what belongs to it. -/
  head : List Piece := []
  clauses : List Doc := []
  body : Option Doc := none

/-- Sort the children of the declaration of a type. -/
def typeParts (kind : NodeKind) : List Piece → Except ShapeError TypeParts
  | [] => return {}
  | p :: ps =>
    if p.kind = .modifiers then do
      let d ← p.doc
      match ps with
      | [] => throw .noChild
      | next :: _ =>
        let rest ← typeParts kind ps
        let gap := separator (some kind) .standard (some next.node) p next
        return { rest with modifiers := d :: gap :: rest.modifiers }
    else if p.kind.isHeaderClause then do
      let d ← p.doc
      let rest ← typeParts kind ps
      return { rest with clauses := d :: rest.clauses }
    else if p.kind.isTypeBody then do
      let d ← p.doc
      let rest ← typeParts kind ps
      return { rest with body := some (rest.body.getD d) }
    else do
      let rest ← typeParts kind ps
      return { rest with head := p :: rest.head }

/-- The declaration of a type. -/
def Site.typeDeclaration (s : Site) : Except ShapeError Doc := do
  let parts ← typeParts s.node.kind s.children
  let head ← Layout.sequence s.node.kind .ofTypeHead parts.head
  let header :=
    if parts.clauses.isEmpty then head
    else grouped [head, indented (parts.clauses.map fun clause => cat [space, clause])]
  return cat (parts.modifiers ++ [header, " ", parts.body.getD ""])

/-- The constants of an enumeration, `current` being the one that a comma would go
with. -/
def enumConstants (source : Source) (current : Option Doc) :
    List Piece → Except ShapeError (List Doc)
  | [] => return current.toList
  | p :: ps =>
    if p.kind = .enumBodyDeclarations then enumConstants source current ps
    else
      match current, p.isToken "," with
      | some d, true => enumConstants source (some (cat [d, ","])) ps
      | _, _ => do
        let d ← p.doc
        let d := if current.isSome && hasBlankLineBefore source p then cat [hardline, d] else d
        let rest ← enumConstants source (some d) ps
        return current.toList ++ rest

/-- The body of an enumeration. -/
def Site.enumBody (s : Site) : Except ShapeError Doc := do
  let constants ← enumConstants s.source none s.unbraced
  let inner := join hardline constants
  match s.unbraced.reverse.find? (·.kind == .enumBodyDeclarations) with
  | some declarations => return braces s.comments (some (cat [inner, ← declarations.doc]))
  | none => return braces s.comments (if constants.isEmpty then none else some inner)

/-- What follows the constants of an enumeration. -/
def Site.enumDeclarations (s : Site) : Except ShapeError Doc := do
  match s.children.drop 1 with
  | [] => return ";"
  | items => return cat [";", hardline, hardline, ← members s.source Gap.ofMembers items]

/-- Dimensions of an array, set off if they begin with an annotation. -/
def Site.dimensions (s : Site) : Except ShapeError Doc := do
  let d ← tight s.children
  if s.node.children.head?.any (·.kind.isAnnotationUse) then return cat [" ", d] else return d

end JavaFormat.Layout
