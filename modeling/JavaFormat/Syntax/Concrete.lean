import JavaFormat.Source

/-!
# Concrete syntax trees

The grammar's own trees, as a parser hands them over: every token and comment is
a node, offsets count bytes, and faulty places are marked. Such a tree is written
as a list of rows, one a node, each node before the nodes below it and each row
with the number of its node's children.
-/

namespace JavaFormat

/-- What a concrete node says of itself. -/
structure ConcreteInfo where
  /-- The grammar's name of the node, or the text of an anonymous token. -/
  type : String
  /-- Whether the grammar names the node. -/
  named : Bool
  start : Nat
  stop : Nat
  /-- The part the node plays in its parent. -/
  field : Option String := none
  /-- Whether the node stands for something that the source lacks. -/
  missing : Bool := false
  /-- Whether the parser marks a fault at or below the node. -/
  faulty : Bool := false
deriving DecidableEq, Repr

/-- A concrete syntax tree. -/
inductive Concrete where
  | node (info : ConcreteInfo) (children : List Concrete)
deriving Repr

namespace Concrete

/-- What is known of the root. -/
def info : Concrete → ConcreteInfo
  | .node info _ => info

/-- The trees directly below the root. -/
def children : Concrete → List Concrete
  | .node _ children => children

/-- A node and the number of its children. -/
structure Row where
  info : ConcreteInfo
  childCount : Nat
deriving Repr

/-- Put a node on top of the trees that follow it, the first ones being its
children. -/
def grow (row : Row) (trees : List Concrete) : List Concrete :=
  .node row.info (trees.take row.childCount) :: trees.drop row.childCount

/-- The trees that rows stand for. -/
def ofRows (rows : List Row) : List Concrete := rows.foldr grow []

mutual

/-- The rows that a tree is written as. -/
def rows : Concrete → List Row
  | .node info children => ⟨info, children.length⟩ :: rowsOfAll children

/-- The rows that several trees are written as. -/
def rowsOfAll : List Concrete → List Row
  | [] => []
  | t :: ts => t.rows ++ rowsOfAll ts

end

/-- The number of nodes of some trees. -/
def nodeCount : List Concrete → Nat
  | [] => 0
  | t :: ts => t.rows.length + nodeCount ts

/-- The nodes of trees that follow one another are counted one tree after the other. -/
theorem nodeCount_append (ts us : List Concrete) :
    nodeCount (ts ++ us) = nodeCount ts + nodeCount us := by
  induction ts with
  | nil => simp [nodeCount]
  | cons t ts ih => simp [nodeCount, ih, Nat.add_assoc]

/-- The order of trees does not matter for the number of their nodes. -/
theorem nodeCount_reverse (ts : List Concrete) : nodeCount ts.reverse = nodeCount ts := by
  induction ts with
  | nil => rfl
  | cons t ts ih => simp [nodeCount_append, nodeCount, ih, Nat.add_comm]

/-- Some of the trees have no more nodes than all of them. -/
theorem nodeCount_filter_le (p : Concrete → Bool) (ts : List Concrete) :
    nodeCount (ts.filter p) ≤ nodeCount ts := by
  induction ts with
  | nil => exact Nat.le_refl _
  | cons t ts ih =>
    rw [List.filter_cons]
    split <;> simp only [nodeCount] <;> omega

/-- Trees are written as one row for each node. -/
theorem length_rowsOfAll (ts : List Concrete) : (rowsOfAll ts).length = nodeCount ts := by
  induction ts with
  | nil => rfl
  | cons t ts ih => simp [rowsOfAll, nodeCount, ih]

/-- A tree has its root and the nodes of the trees directly below it. -/
theorem length_rows (t : Concrete) : t.rows.length = nodeCount t.children + 1 := by
  cases t with
  | node info children => rw [rows, List.length_cons, length_rowsOfAll, Concrete.children]

end Concrete

end JavaFormat
