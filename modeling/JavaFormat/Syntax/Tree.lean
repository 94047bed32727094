import JavaFormat.Source
import JavaFormat.Syntax.Kind

/-!
# Syntax trees

A tree has two sorts of nodes: leaves with a text, which are the anonymous
tokens and the verbatim nodes, and branches. Comments are no part of a tree.
Nodes are numbered so that every node comes after its children and after all
nodes to its left, and a node's number identifies it.
-/

namespace JavaFormat

/-- What leaves and branches have in common. -/
structure NodeInfo where
  /-- The number of the node. -/
  index : Nat
  kind : NodeKind
  /-- The part the node plays in its parent, if the grammar names it. -/
  field : Option String
  span : Span
deriving DecidableEq, Repr

/-- A syntax tree. -/
inductive Tree where
  | leaf (info : NodeInfo) (text : String)
  | branch (info : NodeInfo) (children : List Tree)
deriving Repr

namespace Tree

/-- What is known of the root. -/
def info : Tree → NodeInfo
  | .leaf info _ => info
  | .branch info _ => info

/-- The number of the root. -/
def index (t : Tree) : Nat := t.info.index

/-- The kind of the root. -/
def kind (t : Tree) : NodeKind := t.info.kind

/-- The part that the root plays in its parent. -/
def field (t : Tree) : Option String := t.info.field

/-- Where the tree stands in the source. -/
def span (t : Tree) : Span := t.info.span

/-- The trees directly below the root. -/
def children : Tree → List Tree
  | .leaf _ _ => []
  | .branch _ children => children

/-- The text of a leaf. -/
def text? : Tree → Option String
  | .leaf _ text => some text
  | .branch _ _ => none

/-- The text of a leaf, and the empty text for a branch. -/
def text (t : Tree) : String := t.text?.getD ""

/-- Whether the root is a node that the grammar names. -/
def isNamed (t : Tree) : Bool := t.kind != .token

/-- Whether the tree is the anonymous token of the given text. -/
def isToken (t : Tree) (text : String) : Bool := t.kind == .token && t.text? == some text

/-- The named trees directly below the root. -/
def namedChildren (t : Tree) : List Tree := t.children.filter isNamed

/-- The first child that plays the given part. -/
def child? (t : Tree) (name : String) : Option Tree :=
  t.children.find? (·.field == some name)

/-- All children that play the given part. -/
def childrenNamed (t : Tree) (name : String) : List Tree :=
  t.children.filter (·.field == some name)

/-- The first child that is of one of the given kinds. -/
def firstOf? (t : Tree) (kinds : List NodeKind) : Option Tree :=
  t.children.find? (kinds.contains ·.kind)

/-- Whether the given anonymous token is a child. -/
def hasToken (t : Tree) (text : String) : Bool := t.children.any (·.isToken text)

/-- The first node without children that is met going down to the left. -/
def firstLeaf : Tree → Tree
  | .leaf info text => .leaf info text
  | .branch info [] => .branch info []
  | .branch _ (child :: _) => child.firstLeaf

mutual

/-- The nodes without children, from left to right. -/
def leaves : Tree → List Tree
  | .leaf info text => [.leaf info text]
  | .branch info [] => [.branch info []]
  | .branch _ (child :: rest) => child.leaves ++ leavesOfAll rest

/-- The nodes without children of several trees. -/
def leavesOfAll : List Tree → List Tree
  | [] => []
  | t :: ts => t.leaves ++ leavesOfAll ts

end

mutual

/-- All nodes, each after the nodes below it and the nodes to its left. -/
def nodes : Tree → List Tree
  | .leaf info text => [.leaf info text]
  | .branch info children => nodesOfAll children ++ [.branch info children]

/-- All nodes of several trees. -/
def nodesOfAll : List Tree → List Tree
  | [] => []
  | t :: ts => t.nodes ++ nodesOfAll ts

end

mutual

/-- The way from the node of the given number up to the root, both included. -/
def pathTo? (index : Nat) : Tree → Option (List Tree)
  | .leaf info text => if info.index = index then some [.leaf info text] else none
  | .branch info children =>
    if info.index = index then some [.branch info children]
    else (pathToAny? index children).map (· ++ [.branch info children])

/-- The way from the node of the given number up to the root of the tree among
several that it is in. -/
def pathToAny? (index : Nat) : List Tree → Option (List Tree)
  | [] => none
  | t :: ts =>
    match t.pathTo? index with
    | some path => some path
    | none => pathToAny? index ts

end

end Tree

/-- A node of a tree with the nodes above it. -/
structure Cursor where
  node : Tree
  /-- The nodes above, the nearest one first. -/
  ancestors : List Tree

namespace Cursor

/-- The node of the given number. -/
def at? (root : Tree) (index : Nat) : Option Cursor :=
  match root.pathTo? index with
  | some (node :: ancestors) => some ⟨node, ancestors⟩
  | _ => none

/-- The node above. -/
def parent? (c : Cursor) : Option Tree := c.ancestors.head?

/-- The child of the node above that comes next. -/
def nextSibling? (c : Cursor) : Option Tree :=
  match c.parent? with
  | some parent =>
    ((parent.children.dropWhile (·.index != c.node.index)).drop 1).head?
  | none => none

end Cursor

end JavaFormat
