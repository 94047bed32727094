import JavaFormat.Layout.Spacing

/-!
# Lists of modifiers

Modifiers stand on one line unless an annotation has a line of its own. Keywords
are tokens, so a comment between two of them is put inside the list; it is
printed behind the modifier that it follows in the source.
-/

namespace JavaFormat.Layout

open Doc

/-- A comment behind a modifier. -/
def modifierComment (a : AttachedComment) : List Doc := [" ", a.comment.doc]

/-- Whether a comment comes before the next modifier, if there is one. -/
def comesBefore (following : Option Tree) (a : AttachedComment) : Bool :=
  following.all fun t => decide (a.comment.span.stop.offset ≤ t.span.start.offset)

/-- What goes behind a modifier and the comments printed with it. -/
def modifierBreak (owner : Option NodeKind) (p : Piece) (printed : List AttachedComment) :
    Option Tree → List Doc
  | none => []
  | some following =>
    if printed.getLast?.any (·.comment.isLine) ||
        annotationOnOwnLine owner p.node (some following) || p.hasBreakingTrailing then
      [hardline]
    else [" "]

/-- The parts of a list of modifiers, with the comments still to be printed. -/
def modifierParts (owner : Option NodeKind) :
    List AttachedComment → List Piece → Except ShapeError (List Doc)
  | _, [] => return []
  | pending, p :: ps => do
    let d ← p.doc
    let following := ps.head?.map Piece.node
    let printed := pending.takeWhile (comesBefore following)
    let rest ← modifierParts owner (pending.dropWhile (comesBefore following)) ps
    return d :: printed.flatMap modifierComment ++ modifierBreak owner p printed following ++ rest

/-- A list of modifiers. -/
def Site.modifiers (s : Site) : Except ShapeError Doc := do
  return cat (← modifierParts s.parent s.comments.dangling s.children)

end JavaFormat.Layout
