/-!
# Lines of a text

A line ends at U+000A and nowhere else. Cutting and joining are inverse to each
other in the sense that joining the lines of a text gives the text back; a text
always has at least one line. Before anything else happens to a source its
carriage returns are turned into line feeds.
-/

namespace JavaFormat.Text

/-- The lines of a text, without the line feeds between them. -/
def lines (s : String) : List String := (s.toList.splitOn '\n').map String.ofList

/-- Put lines together with a line feed between neighbours. -/
def unlines (ls : List String) : String :=
  String.ofList (List.intercalate ['\n'] (ls.map String.toList))

/-- Whether a text has more than one line. -/
def isMultiline (s : String) : Bool := s.toList.contains '\n'

/-- Write every carriage return, alone or before a line feed, as one line feed. -/
def unifyNewlineChars : List Char → List Char
  | '\r' :: '\n' :: rest => '\n' :: unifyNewlineChars rest
  | '\r' :: rest => '\n' :: unifyNewlineChars rest
  | c :: rest => c :: unifyNewlineChars rest
  | [] => []

/-- A source with line feeds as its only line ends. -/
def unifyNewlines (s : String) : String := String.ofList (unifyNewlineChars s.toList)

/-- Joining the lines of a text gives the text back. -/
theorem unlines_lines (s : String) : unlines (lines s) = s := by
  simp [unlines, lines, List.map_map, Function.comp_def, List.intercalate_splitOn]

end JavaFormat.Text
