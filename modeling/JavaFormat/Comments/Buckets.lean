import JavaFormat.Comments.Attachment

/-!
# Attaching comments into buckets

Comments are attached one after the other. As soon as the place of one is known it is put into
the bucket of its node, behind those that have its role there, so nothing has to be looked for
when the comments of a node are asked for.
-/

namespace JavaFormat

/-- Put a comment behind those that have its role. -/
def NodeComments.add (c : NodeComments) (a : AttachedComment) : NodeComments :=
  match a.role with
  | .leading => { c with leading := c.leading ++ [a] }
  | .trailing => { c with trailing := c.trailing ++ [a] }
  | .dangling => { c with dangling := c.dangling ++ [a] }

/-- The comments of the nodes that have some, by the numbers of these nodes. The node that got
the first comment stands first. -/
abbrev Buckets := List (Nat × NodeComments)

namespace Buckets

/-- Put a comment into the bucket of its node. A node without one gets a new one behind the
others. -/
def put : Buckets → AttachedComment → Buckets
  | [], a => [(a.node, NodeComments.add {} a)]
  | (i, c) :: buckets, a =>
    if i = a.node then (i, c.add a) :: buckets else (i, c) :: put buckets a

/-- Put comments into their buckets one after the other. -/
def ofList (as : List AttachedComment) : Buckets := as.foldl put []

/-- The comments of the node of a number. -/
def get (buckets : Buckets) (node : Nat) : NodeComments := (buckets.lookup node).getD {}

/-- All comments, one node after the other. -/
def toList (buckets : Buckets) : List AttachedComment :=
  buckets.flatMap fun bucket =>
    bucket.2.leading ++ bucket.2.trailing ++ bucket.2.dangling

/-- The number of all comments. -/
def count (buckets : Buckets) : Nat :=
  buckets.foldr (fun bucket rest =>
    bucket.2.leading.length + bucket.2.trailing.length + bucket.2.dangling.length + rest) 0

end Buckets

/-- Attach all comments of a source, each into its bucket before the next is looked at. -/
def Parsed.gather (policy : TieBreak) (p : Parsed) : Except FormatError Buckets :=
  p.comments.foldlM (fun buckets c => return buckets.put (← p.attachComment policy c)) []

end JavaFormat
