import JavaFormat.Syntax.Fault

/-!
# Searching for a fault, one node at a time

`firstFault?` follows the structure of a tree. The search that a parser's tree is put
through is a loop: it keeps the nodes that it still has to look at on a stack, the next
one last. A node that is not at fault gives way to the marked nodes directly below it,
which are put there in reverse so that the first of them is looked at next.
-/

namespace JavaFormat.Concrete

/-- The nodes still to be looked at after a node without a fault. -/
def searchBelow (stack : List Concrete) (t : Concrete) : List Concrete :=
  stack.dropLast ++ t.children.reverse.filter (·.info.isMarked)

/-- A node is more than the nodes that it gives way to. -/
theorem nodeCount_searchBelow_lt {stack : List Concrete} {t : Concrete}
    (h : stack.getLast? = some t) : nodeCount (searchBelow stack t) < nodeCount stack := by
  obtain ⟨init, rfl⟩ := List.getLast?_eq_some_iff.mp h
  have hbelow : nodeCount (t.children.reverse.filter (·.info.isMarked)) ≤ nodeCount t.children :=
    nodeCount_reverse t.children ▸ nodeCount_filter_le _ _
  have hsingle : nodeCount [t] = nodeCount t.children + 1 := length_rows t
  rw [searchBelow, List.dropLast_concat, nodeCount_append, nodeCount_append, hsingle]
  omega

/-- Look at the nodes on a stack, and at those below them that the marks lead to, until one
is at fault. -/
def searchFault? (stack : List Concrete) : Option ConcreteInfo :=
  match _h : stack.getLast? with
  | none => none
  | some t => if t.info.isFault then some t.info else searchFault? (searchBelow stack t)
termination_by nodeCount stack
decreasing_by exact nodeCount_searchBelow_lt _h

end JavaFormat.Concrete
