import JavaFormat.Source

/-!
# Comments

Comments are taken out of the tree when a source is read and put to its nodes
again before layout.
-/

namespace JavaFormat

/-- A comment of a source. -/
structure Comment where
  /-- The text with its delimiters; that of a line comment has no blanks at its
  end. -/
  text : String
  /-- Whether the comment runs to the end of its line. -/
  isLine : Bool
  span : Span
deriving DecidableEq, Repr

end JavaFormat
