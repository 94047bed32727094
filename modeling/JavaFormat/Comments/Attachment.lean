import JavaFormat.Comments.Placement

/-!
# Attached comments

Every comment of a source is attached to exactly one node. With it goes what
layout has to know of the lines around it, so that layout does not look at the
source for the sake of comments.
-/

namespace JavaFormat

/-- A comment with its place. -/
structure AttachedComment where
  comment : Comment
  role : CommentRole
  /-- The number of the node. -/
  node : Nat
  /-- The number of blank lines above a comment that is the first thing on its
  line. -/
  blankLinesBefore : Nat
  /-- The number of blank lines below a comment that is the last thing on its
  line. -/
  blankLinesAfter : Nat
  /-- Whether it is the first thing on its line. -/
  ownLine : Bool
  /-- Whether it is the last thing on its line. -/
  breaksAfter : Bool
deriving DecidableEq, Repr

/-- The comments of one node, each sort in the order of the source. -/
structure NodeComments where
  leading : List AttachedComment := []
  trailing : List AttachedComment := []
  dangling : List AttachedComment := []
deriving DecidableEq, Repr

/-- Whether a node has no comments. -/
def NodeComments.isEmpty (c : NodeComments) : Bool :=
  c.leading.isEmpty && c.trailing.isEmpty && c.dangling.isEmpty

/-- Whether a comment behind the node has to end its line. -/
def NodeComments.hasBreakingTrailing (c : NodeComments) : Bool :=
  c.trailing.any fun a => a.comment.isLine || a.ownLine

/-- The attached comments of a source, in its order. -/
abbrev Attachments := List AttachedComment

/-- The comments of the node of a number. -/
def Attachments.at (attachments : Attachments) (node : Nat) : NodeComments :=
  let own := attachments.filter (·.node == node)
  { leading := own.filter (·.role == .leading)
    trailing := own.filter (·.role == .trailing)
    dangling := own.filter (·.role == .dangling) }

/-- A comment at its place, with what the lines around it look like. -/
def Placement.attach (source : Source) (c : Comment) (place : Placement) : AttachedComment :=
  let ownLine := source.startsLine c.span.start
  let breaksAfter := c.breaksAfter source
  { comment := c
    role := place.role
    node := place.node.index
    blankLinesBefore := if ownLine then source.blankLinesBefore c.span.start.line else 0
    blankLinesAfter := if breaksAfter then source.blankLinesAfter c.span.stop.line else 0
    ownLine := ownLine
    breaksAfter := breaksAfter }

/-- Attach one comment. Its line in an error counts from one and from the first
line of the scaffold. -/
def Parsed.attachComment (policy : TieBreak) (p : Parsed) (c : Comment) :
    Except FormatError AttachedComment :=
  match Placement.of? policy p c with
  | some place => .ok (place.attach p.source c)
  | none => .error (.unattachedComment c.text (c.span.start.line + 1))

/-- Attach all comments of a source. -/
def Parsed.attach (policy : TieBreak) (p : Parsed) : Except FormatError Attachments :=
  p.comments.mapM (p.attachComment policy)

end JavaFormat
