import JavaFormat.Syntax.Parsed

/-!
# Flattening a tree, one node at a time

`Concrete.convert` follows the structure of a tree. The conversion that a parser's tree is
put through is a loop that fills a table: a row for each node, the children of which are told
by their numbers. The nodes that have been gone into and not left are kept on a stack, each in
a frame with all the nodes directly below it, how many of them have been looked at, and the
numbers of the rows that they have become. A row is numbered when it is added, and the row of
a branch is added when the branch is left, so it stands behind the rows of its children.

A table can be asked for the node above each node and for the leaves below a node. These
questions are loops over the table as well.
-/

namespace JavaFormat

/-- A row of a table of nodes. -/
structure TableNode where
  /-- The number of the node. -/
  index : Nat
  kind : NodeKind
  span : Span
  /-- The numbers of the children. -/
  children : List Nat := []
  /-- The part the node plays in its parent, if the grammar names it. -/
  field : Option String
  /-- The text of a leaf. -/
  text : Option String := none
deriving DecidableEq, Repr

/-- The row of a node. -/
def Tree.row (t : Tree) : TableNode where
  index := t.index
  kind := t.kind
  span := t.span
  children := t.children.map index
  field := t.field
  text := t.text?

/-- A table of nodes with the comments that were taken out. -/
structure NodeTable where
  nodes : List TableNode
  /-- The number of the root. -/
  root : Nat
  comments : List Comment
deriving DecidableEq, Repr

/-- The table of a tree and some comments. -/
def NodeTable.of (whole : Tree) (comments : List Comment) : NodeTable where
  nodes := whole.nodes.map Tree.row
  root := whole.index
  comments := comments

/-! ## Filling a table -/

/-- A node that has been gone into. -/
structure Frame where
  info : ConcreteInfo
  /-- The part the node plays in its parent. -/
  field : Option String
  /-- All the nodes directly below it. -/
  pending : List Concrete
  /-- How many of them have been looked at. -/
  position : Nat := 0
  /-- The numbers of the rows that these have become. -/
  children : List Nat := []

namespace Frame

/-- Go into a node that plays a part in its parent. -/
def enter (field : Option String) (t : Concrete) : Frame :=
  { info := t.info, field := field, pending := t.children }

/-- Note that the next node below has been looked at. -/
def advance (frame : Frame) : Frame := { frame with position := frame.position + 1 }

/-- Note that a node below has become a row. -/
def add (frame : Frame) (index : Nat) : Frame :=
  { frame with children := frame.children ++ [index] }

/-- What is left to do in a frame: it is to be left, and each node below that has not been
looked at may have to be gone into and left. -/
def work (frame : Frame) : Nat :=
  1 + 2 * Concrete.nodeCount (frame.pending.drop frame.position)

/-- A frame has to be left at least. -/
theorem work_pos (frame : Frame) : 0 < frame.work := by
  rw [work]
  omega

/-- Nothing more is to be done because a node has become a row. -/
theorem work_add (frame : Frame) (index : Nat) : (frame.add index).work = frame.work := rfl

/-- A frame that advances has less to do by the nodes of the tree that it is done with. -/
theorem work_eq_of_getElem? {frame : Frame} {t : Concrete}
    (h : frame.pending[frame.position]? = some t) :
    frame.work = 2 * t.rows.length + frame.advance.work := by
  obtain ⟨hlt, rfl⟩ := List.getElem?_eq_some_iff.mp h
  rw [work, List.drop_eq_getElem_cons hlt, Concrete.nodeCount, work]
  dsimp only [advance]
  omega

/-- A node is done with by going into it and leaving it. -/
theorem work_enter_lt (field : Option String) (t : Concrete) :
    (enter field t).work < 2 * t.rows.length := by
  rw [work, Concrete.length_rows]
  dsimp only [enter]
  rw [List.drop_zero]
  omega

end Frame

/-- The state of the conversion. -/
structure Flattening where
  /-- The nodes that have been gone into and not left, the innermost first. -/
  frames : List Frame
  nodes : List TableNode := []
  /-- The comments in the order of the tree. -/
  comments : List Comment := []
  /-- The number of the root once it has been left. -/
  root : Option Nat := none

namespace Flattening

/-- What a step of the conversion came to. -/
inductive Step where
  | next (f : Flattening)
  | done
  | failed (e : FormatError)
  /-- The table has no row of the number that a child was given. -/
  | noRow

/-- Look at a node directly below the innermost frame, which has advanced beyond it. Comments
and leaves are dealt with at once; any other node is gone into. -/
def visit (source : Source) (f : Flattening) (frame : Frame) (above : List Frame)
    (t : Concrete) : Step :=
  match t.info.part with
  | .comment isLine =>
    match t.info.text source with
    | .ok text =>
      let span := source.span t.info.start t.info.stop
      let comment := ⟨if isLine then Text.trimEnd text else text, isLine, span⟩
      .next { f with frames := frame :: above, comments := f.comments ++ [comment] }
    | .error e => .failed e
  | .leaf kind =>
    match t.info.text source with
    | .ok text =>
      let index := f.nodes.length
      let span := source.span t.info.start t.info.stop
      let row := { index, kind, span, field := t.info.field, text := some text }
      .next { f with frames := frame.add index :: above, nodes := f.nodes ++ [row] }
    | .error e => .failed e
  | .branch _ => .next { f with frames := .enter t.info.field t :: frame :: above }
  | .unknown => .failed (.unhandledKind t.info.type)

/-- The span of a branch: from the beginning of its first child to the end of its last, or its
own if it has none; `none` if one of these has no row. -/
def spanOver? (nodes : List TableNode) (own : Span) (children : List Nat) : Option Span :=
  match children.head?, children.getLast? with
  | some first, some last => do
    let first ← nodes[first]?
    let last ← nodes[last]?
    return ⟨first.span.start, last.span.stop⟩
  | _, _ => some own

/-- Leave the innermost frame: its node becomes a row, and a child of the frame above. -/
def leave (source : Source) (f : Flattening) (frame : Frame) (above : List Frame) : Step :=
  match spanOver? f.nodes (source.span frame.info.start frame.info.stop) frame.children with
  | none => .noRow
  | some span =>
    match NodeKind.ofName? frame.info.type with
    | none => .failed (.unhandledKind frame.info.type)
    | some kind =>
      let index := f.nodes.length
      let row := { index, kind, span, children := frame.children, field := frame.field }
      let f := { f with nodes := f.nodes ++ [row] }
      match above with
      | [] => .next { f with frames := [], root := some index }
      | outer :: rest => .next { f with frames := outer.add index :: rest }

/-- One step of the conversion. -/
def step (source : Source) (f : Flattening) : Step :=
  match f.frames with
  | [] => .done
  | frame :: above =>
    match frame.pending[frame.position]? with
    | some t => f.visit source frame.advance above t
    | none => f.leave source frame above

/-- What is left to do. -/
def work (f : Flattening) : Nat := f.frames.foldr (fun frame rest => frame.work + rest) 0

/-- Every step leaves less to do. -/
theorem work_lt_of_step {source : Source} {f f' : Flattening} (h : f.step source = .next f') :
    f'.work < f.work := by
  obtain ⟨frames, nodes, comments, root⟩ := f
  cases frames with
  | nil => cases h
  | cons frame above =>
    rw [step] at h
    dsimp only at h
    cases hnext : frame.pending[frame.position]? with
    | none =>
      simp only [hnext, leave] at h
      split at h
      · cases h
      · split at h
        · cases h
        · cases above with
          | nil =>
            cases h
            simp [work, frame.work_pos]
          | cons outer rest =>
            cases h
            simp [work, Frame.work_add, frame.work_pos]
    | some t =>
      have hless := Frame.work_eq_of_getElem? hnext
      have henter := Frame.work_enter_lt t.info.field t
      simp only [hnext, visit] at h
      split at h
      · split at h
        · cases h
          simp only [work, List.foldr_cons]
          omega
        · cases h
      · split at h
        · cases h
          simp only [work, List.foldr_cons, Frame.work_add]
          omega
        · cases h
      · cases h
        simp only [work, List.foldr_cons]
        omega
      · cases h

/-- Go on with the conversion to its end. There is no result if a row was missing. -/
def run (source : Source) (f : Flattening) : Option (Except FormatError Flattening) :=
  match _h : f.step source with
  | .next f' => f'.run source
  | .done => some (.ok f)
  | .failed e => some (.error e)
  | .noRow => none
termination_by f.work
decreasing_by exact work_lt_of_step _h

/-- What a conversion that has come to its end hands out: its table, the comments put into the
order of the source. There is no table if the root has not been left. -/
def result? (f : Flattening) : Option NodeTable :=
  f.root.map fun root => ⟨f.nodes, root, Text.sort Concrete.startsBefore f.comments⟩

end Flattening

/-- Flatten a tree, whatever its root is. There is no result if a row was missing. -/
def Concrete.flatten? (source : Source) (t : Concrete) : Option (Except FormatError NodeTable) :=
  match Flattening.run source { frames := [.enter none t] } with
  | none => none
  | some (.error e) => some (.error e)
  | some (.ok f) => f.result?.map .ok

/-! ## Reading a table -/

namespace NodeTable

/-- Note the number of a node at each of its children. -/
def noteParent (parents : List (Option Nat)) (node : TableNode) : List (Option Nat) :=
  node.children.foldl (fun parents child => parents.set child (some node.index)) parents

/-- The number of the node above each node, found by going through all lists of children. -/
def parents (table : NodeTable) : List (Option Nat) :=
  table.nodes.foldl noteParent (List.replicate table.nodes.length none)

/-- Read the leaves below the nodes on a stack. A node with children gives way to them; `none`
if a child has no row, or if the nodes are more than the fuel. -/
def readLeaves? (table : NodeTable) : Nat → List TableNode → Option (List TableNode)
  | 0, _ => none
  | _ + 1, [] => some []
  | fuel + 1, node :: stack =>
    if node.children.isEmpty then (table.readLeaves? fuel stack).map (node :: ·)
    else
      match node.children.mapM (table.nodes[·]?) with
      | none => none
      | some children => table.readLeaves? fuel (children ++ stack)

/-- The leaves below a node from left to right. -/
def leaves? (table : NodeTable) (index : Nat) : Option (List TableNode) :=
  match table.nodes[index]? with
  | none => none
  | some node => table.readLeaves? (table.nodes.length + 1) [node]

end NodeTable

end JavaFormat
