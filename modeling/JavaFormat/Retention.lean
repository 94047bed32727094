import JavaFormat.Error
import JavaFormat.Syntax.Parsed
import JavaFormat.Text.Blank
import JavaFormat.Text.Sorting

/-!
# No comment is lost

A source and its formatted text must have the same comments, each as often. Since
block comments may be indented anew, comments are compared by their lines without
the blanks around them.
-/

namespace JavaFormat

/-- What identifies a comment: its lines without the blanks around them. -/
def Comment.key (c : Comment) : String := Text.unlines ((Text.lines c.text).map Text.trim)

/-- The keys of the comments of a source. -/
def Parsed.commentKeys (p : Parsed) : List String := p.comments.map Comment.key

namespace Retention

/-- The keys of `left` that are left over when those of `right` are taken away one
by one. -/
def surplus (left right : List String) : List String := right.foldl List.erase left

/-- The keys that do not occur equally often on both sides, each as often as the
difference says, in alphabetical order. -/
def mismatch (before after : List String) : List String :=
  Text.sort (fun a b => decide (a ≤ b)) (surplus before after ++ surplus after before)

/-- Compare the comments of a source and of its formatted text. -/
def check (before after : Parsed) : Except FormatError Unit :=
  match mismatch before.commentKeys after.commentKeys with
  | [] => .ok ()
  | keys => .error (.lostComments keys)

end Retention

end JavaFormat
