import JavaFormat.Layout.Rule

/-!
# Layout of a single node

The layout of any node of a tree, root or not, is what it is as a part of the
whole: it depends on the kind of the node above and on what is below.
-/

namespace JavaFormat.Layout

/-- The kind of the node above. -/
def parentKind? (c : Cursor) : Option NodeKind := c.parent?.map Tree.kind

/-- The kind of the node above the node above. -/
def grandparentKind? (c : Cursor) : Option NodeKind := c.ancestors[1]?.map Tree.kind

/-- The piece of the node at a cursor. -/
def Scene.pieceAt (scene : Scene) (c : Cursor) : Piece := layOut scene (parentKind? c) c.node

/-- The site of the node at a cursor. -/
def Scene.siteAt (scene : Scene) (c : Cursor) : Site :=
  scene.site (parentKind? c) c.node (layOutAll scene (some c.node.kind) c.node.children)

end JavaFormat.Layout
