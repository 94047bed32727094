import JavaFormat.Options
import JavaFormat.Syntax.Parsed

/-!
# Where comments go

A comment is put to a node: before it, behind it, or inside it if there is
nothing else inside. To find the node, the deepest node around the comment is
looked for, and its nearest named children on both sides. A comment that begins
on the line where the node on its left ends belongs to that node; the policy
decides only if the node on its right begins on the line where the comment ends.

The opening brace of a body is printed on the line before it, so a comment that
ends its line in front of a body moves into the body.
-/

namespace JavaFormat

/-- Where a comment stands in relation to its node. -/
inductive CommentRole where
  /-- Before the node. -/
  | leading
  /-- Behind the node. -/
  | trailing
  /-- Inside the node. -/
  | dangling
deriving DecidableEq, Repr

/-- The word for a role. -/
def CommentRole.name : CommentRole → String
  | .leading => "leading"
  | .trailing => "trailing"
  | .dangling => "dangling"

/-- The nodes around a comment. -/
structure Surroundings where
  /-- The deepest node around the comment, if any. -/
  container : Option Tree
  /-- The nearest node on the left. -/
  previous : Option Tree
  /-- The nearest node on the right. -/
  following : Option Tree

namespace Surroundings

mutual

/-- The surroundings of the stretch from `start` to `stop`, which is inside the
given node. -/
def inside (start stop : Nat) : Tree → Surroundings
  | .leaf info text => ⟨some (.leaf info text), none, none⟩
  | .branch info children => among start stop (some (.branch info children)) none children

/-- The surroundings of the stretch among the named ones of some children of
`container`, `previous` being the last named child on their left. -/
def among (start stop : Nat) (container previous : Option Tree) : List Tree → Surroundings
  | [] => ⟨container, previous, none⟩
  | t :: ts =>
    if !t.isNamed then among start stop container previous ts
    else if t.span.stop.offset ≤ start then among start stop container (some t) ts
    else if stop ≤ t.span.start.offset then ⟨container, previous, some t⟩
    else inside start stop t

end

/-- The surroundings of the stretch among several roots, tokens included. -/
def amongRoots (start stop : Nat) (previous : Option Tree) : List Tree → Surroundings
  | [] => ⟨none, previous, none⟩
  | t :: ts =>
    if t.span.stop.offset ≤ start then amongRoots start stop (some t) ts
    else if stop ≤ t.span.start.offset then ⟨none, previous, some t⟩
    else inside start stop t

/-- The surroundings of a comment. A compilation unit is around all comments. -/
def of (p : Parsed) (c : Comment) : Surroundings :=
  let start := c.span.start.offset
  let stop := c.span.stop.offset
  match p.roots with
  | [root] => if root.kind = .program then inside start stop root else amongRoots start stop none [root]
  | roots => amongRoots start stop none roots

end Surroundings

/-- The node that a comment is put to, and how. -/
structure Placement where
  node : Tree
  role : CommentRole

/-- Whether a tree ends on the line that a comment begins on. -/
def Comment.isOnLastLineOf (c : Comment) (t : Tree) : Bool :=
  t.span.stop.line == c.span.start.line

/-- Whether a tree begins on the line that a comment ends on. -/
def Comment.isOnFirstLineOf (c : Comment) (t : Tree) : Bool :=
  t.span.start.line == c.span.stop.line

/-- Whether a comment is the last thing on its line. -/
def Comment.breaksAfter (source : Source) (c : Comment) : Bool :=
  c.isLine || source.endsLine c.span.stop

namespace Placement

/-- Choose among the surroundings; `none` if there are none. -/
def choose? (policy : TieBreak) (c : Comment) (s : Surroundings) : Option Placement :=
  match s.previous, s.following with
  | some previous, some following =>
    if c.isOnLastLineOf previous && !(c.isOnFirstLineOf following && policy == .leading) then
      some ⟨previous, .trailing⟩
    else some ⟨following, .leading⟩
  | some previous, none => some ⟨previous, .trailing⟩
  | none, some following => some ⟨following, .leading⟩
  | none, none => s.container.map (⟨·, .dangling⟩)

/-- The place inside a body: in front of its first member, or in the empty body. -/
def intoBody (body : Tree) : Placement :=
  match body.namedChildren with
  | [] => ⟨body, .dangling⟩
  | member :: _ => ⟨member, .leading⟩

/-- The body that a comment moves into: the one on its right, if the comment ends
its line in the header of a construct. -/
def bodyAhead? (source : Source) (c : Comment) (s : Surroundings) : Option Tree :=
  match s.container, s.following with
  | some container, some following =>
    if following.kind.isBody && !container.kind.isMemberList && c.breaksAfter source then
      some following
    else none
  | _, _ => none

/-- The place of a comment; `none` if there is no node to put it to. -/
def of? (policy : TieBreak) (p : Parsed) (c : Comment) : Option Placement :=
  let s := Surroundings.of p c
  match bodyAhead? p.source c s with
  | some body => some (intoBody body)
  | none => choose? policy c s

end Placement

end JavaFormat
