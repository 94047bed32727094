import JavaFormat.Layout.Spacing

/-!
# Members and bodies

Members stand one a line. At most one blank line is kept between two of them, and
some pairs always get one. A stray semicolon stays on the line of the member
before it.
-/

namespace JavaFormat.Layout

open Doc

/-- Which pairs of members always have a blank line between them. -/
abbrev Gap := Tree → Tree → Bool

/-- No pair is forced apart. -/
def Gap.none : Gap := fun _ _ => false

/-- Whether the source has a blank line above a node, or above the first comment
in front of it. -/
def hasBlankLineBefore (source : Source) (p : Piece) : Bool :=
  let start :=
    match p.comments.leading with
    | a :: _ => a.comment.span.start
    | [] => p.node.span.start
  source.startsLine start && decide (0 < start.line) && source.isBlankLine (start.line - 1)

/-- What goes in front of a member. -/
def memberBreak (blank : Bool) : List Doc := if blank then [hardline, hardline] else [hardline]

/-- The parts of a list of members that follow `previous`. -/
def membersAfter (source : Source) (gap : Gap) (previous : Tree) :
    List Piece → Except ShapeError (List Doc)
  | [] => return []
  | p :: ps => do
    let d ← p.doc
    if p.isToken ";" then
      let rest ← membersAfter source gap previous ps
      return d :: rest
    else
      let rest ← membersAfter source gap p.node ps
      return memberBreak (hasBlankLineBefore source p || gap previous p.node) ++ d :: rest

/-- Members, one a line. -/
def members (source : Source) (gap : Gap) : List Piece → Except ShapeError Doc
  | [] => return cat []
  | p :: ps => do
    let d ← p.doc
    let rest ← membersAfter source gap p.node ps
    return cat (d :: rest)

/-- Members, one a line, if there are any. -/
def members? (source : Source) (gap : Gap) (pieces : List Piece) :
    Except ShapeError (Option Doc) :=
  if pieces.isEmpty then return none else (members source gap pieces).map some

/-- Braces around the comments inside a node and its contents, which stand
indented on lines of their own. -/
def braces (comments : NodeComments) (contents : Option Doc) : Doc :=
  match comments.danglingBlock?.toList ++ contents.toList with
  | [] => "\x7b\x7d"
  | body => cat ["\x7b", indented [hardline, join hardline body], hardline, "\x7d"]

/-- Members that always have a blank line on both sides: types, and whatever has
a body of its own. -/
def isSpacious (t : Tree) : Bool :=
  match t.kind with
  | .methodDeclaration => (t.firstOf? [.block]).isSome
  | .constructorDeclaration | .compactConstructorDeclaration | .staticInitializer | .block => true
  | kind => kind.isTypeDeclaration

/-- The gap between the members of a type. -/
def Gap.ofMembers : Gap := fun previous next => isSpacious previous || isSpacious next

/-- The gap between the parts of a compilation unit. -/
def Gap.ofProgram : Gap := fun previous next =>
  match previous.kind with
  | .packageDeclaration => true
  | .importDeclaration => next.kind != .importDeclaration
  | kind =>
    kind.isTypeDeclaration || next.kind.isTypeDeclaration || kind == .moduleDeclaration ||
      next.kind == .moduleDeclaration

/-- A body of members between braces. -/
def Site.body (s : Site) (gap : Gap) : Except ShapeError Doc := do
  let contents ← members? s.source gap s.unbraced
  return braces s.comments contents

/-- A compilation unit: the comments inside it, then its parts. -/
def Site.program (s : Site) : Except ShapeError Doc := do
  let contents ← members? s.source Gap.ofProgram s.children
  match s.comments.danglingBlock?.toList ++ contents.toList with
  | [] => return ""
  | body => return cat [join hardline body, hardline]

end JavaFormat.Layout
