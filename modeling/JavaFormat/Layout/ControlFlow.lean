import JavaFormat.Layout.Members

/-!
# Control flow

A block stays on the line of the header that it belongs to; any other statement
is indented and stays there only if it fits. The keyword that goes on with a
statement follows the closing brace of a block, or begins a line of its own.
-/

namespace JavaFormat.Layout

open Doc

/-- Whether the last named node of a header has a comment behind it that has to
end its line. -/
def endsWithBreak (header : List Piece) : Bool :=
  (header.reverse.find? (·.node.isNamed)).any Piece.hasBreakingTrailing

/-- The statement that a header is for. -/
def headedBody (header : List Piece) (body : Piece) : Except ShapeError Doc := do
  if body.kind = .block then
    match header.getLast? with
    | none => throw .noChild
    | some last => return cat [continuation last, ← body.doc]
  else if body.isToken ";" then return ";"
  else
    let d ← body.doc
    if endsWithBreak header then return indented [hardline, d]
    else return grouped [indented [space, d]]

/-- What goes between a statement and the keyword behind it. -/
def beforeKeyword (body : Piece) : Doc :=
  if body.kind = .block then continuation body else hardline

/-- What follows an `else`: another conditional statement on the same line, or any
other statement. -/
def alternativeParts (keyword alternative : Piece) : Except ShapeError (List Doc) := do
  if alternative.kind = .ifStatement then return [" ", ← alternative.doc]
  else return [← headedBody [keyword] alternative]

/-- The part of a conditional statement from its `else` on. -/
def elseParts (consequence : Piece) : List Piece → Except ShapeError (List Doc)
  | [] => return []
  | [_] => throw .noChild
  | keyword :: alternative :: _ => do
    let d ← keyword.doc
    return beforeKeyword consequence :: d :: (← alternativeParts keyword alternative)

/-- A conditional statement. -/
def Site.ifStatement (s : Site) : Except ShapeError Doc :=
  match s.children with
  | keyword :: condition :: consequence :: more => do
    let first ← keyword.doc
    let test ← condition.doc
    let body ← headedBody [keyword, condition] consequence
    let rest ← elseParts consequence more
    return cat ([first, " ", test, body] ++ rest)
  | children => throw (.childCount 3 children.length)

/-- A loop with its condition in front. -/
def Site.loop (s : Site) : Except ShapeError Doc :=
  match s.children.getLast? with
  | none => throw (.tooFewChildren 1 0)
  | some body => do
    let header := s.children.dropLast
    let head ← Layout.sequence s.node.kind .standard header
    return cat [head, ← headedBody header body]

/-- A loop with its condition behind. -/
def Site.doLoop (s : Site) : Except ShapeError Doc :=
  match s.children with
  | keyword :: body :: tail => do
    let first ← keyword.doc
    let statement ← headedBody [keyword] body
    let rest ← Layout.sequence s.node.kind .standard tail
    return cat [first, statement, beforeKeyword body, rest]
  | children => throw (.tooFewChildren 2 children.length)

/-- The labels of a group of a switch and its statements. -/
structure SwitchGroup where
  /-- The labels, the last one first. -/
  labels : List Doc
  /-- The node of the last label. -/
  lastLabel : Option Piece
  statements : List Piece

/-- Read the labels off the children of a group; a colon goes with the label in
front of it. -/
def switchLabels (labels : List Doc) (lastLabel : Option Piece) :
    List Piece → Except ShapeError SwitchGroup
  | [] => return ⟨labels, lastLabel, []⟩
  | p :: ps =>
    match labels with
    | label :: before =>
      if p.isToken ":" then switchLabels (cat [label, ":"] :: before) lastLabel ps
      else if p.kind = .switchLabel then do
        switchLabels ((← p.doc) :: labels) (some p) ps
      else return ⟨labels, lastLabel, p :: ps⟩
    | [] =>
      if p.kind = .switchLabel then do switchLabels [← p.doc] (some p) ps
      else return ⟨labels, lastLabel, p :: ps⟩

/-- Labels one a line and the statements indented below them; a block that is the
only statement stays on the line of the last label. `own` is the group's own
comments' break behind it, which decides if there is no label. -/
def Site.switchGroup (s : Site) : Except ShapeError Doc := do
  let g ← switchLabels [] none s.children
  let head := join hardline g.labels.reverse
  match g.statements with
  | [] => return head
  | [statement] =>
    if statement.kind = .block then
      let breaks :=
        match g.lastLabel with
        | some label => label.hasBreakingTrailing
        | none => s.comments.hasBreakingTrailing
      return cat [head, if breaks then hardline else " ", ← statement.doc]
    else return cat [head, indented [hardline, ← members s.source Gap.none [statement]]]
  | statements => return cat [head, indented [hardline, ← members s.source Gap.none statements]]

end JavaFormat.Layout
