import JavaFormat.Doc.Basic
import JavaFormat.Text.Quoted

/-!
# The readable form of a document

A document is shown as nested calls, one child a line, indented by two spaces a
level. Texts are quoted, and the usual line breaks have names of their own; the
two certain breaks have one also where their parts stand in a longer
concatenation.
-/

namespace JavaFormat

/-- The name of a bare line break. -/
def LineStyle.name (style : LineStyle) : String :=
  if style = {} then "line"
  else if style = { soft := true } then "softline"
  else if style.literal then "literalline_without_break_parent"
  else "hardline_without_break_parent"

namespace Doc

/-- The margin of a nesting depth; a negative one has none. -/
def margin (depth : Int) : String := String.ofList (List.replicate (2 * depth).toNat ' ')

/-- A bracketed list of children that are already shown. -/
def bracketed (depth : Int) (name : String) (children : List String) : String :=
  margin depth ++ name ++ "[\n" ++ String.intercalate ",\n" children ++ "\n" ++ margin depth ++ "]"

/-- A call with one child that is already shown. -/
def called (depth : Int) (name child : String) : String :=
  margin depth ++ name ++ "(\n" ++ child ++ "\n" ++ margin depth ++ ")"

mutual

/-- A document as nested calls, its first line indented for the given depth. -/
def dump (depth : Int) : Doc → String
  | .text s => margin depth ++ Text.quote s
  | .concat [.line { hard := true, soft := false, literal := false }, .breakParent] =>
    margin depth ++ "hardline"
  | .concat [.line { hard := true, soft := false, literal := true }, .breakParent] =>
    margin depth ++ "literalline"
  | .concat parts => bracketed depth "" (dumpAll (depth + 1) parts)
  | .group _ contents => called depth "group" (dump (depth + 1) contents)
  | .choice states => bracketed depth "conditional_group" (dumpAll (depth + 1) states)
  | .indent contents => called depth "indent" (dump (depth + 1) contents)
  | .fill parts => bracketed depth "fill" (dumpAll (depth + 1) parts)
  | .line style => margin depth ++ style.name
  | .suffix contents => called depth "line_suffix" (dump (depth + 1) contents)
  | .breakParent => margin depth ++ "break_parent"

/-- Several documents, each as nested calls. -/
def dumpAll (depth : Int) : List Doc → List String
  | [] => []
  | d :: ds => dump depth d :: dumpAll depth ds

end

end Doc

end JavaFormat
