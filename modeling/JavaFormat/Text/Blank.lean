/-!
# Blanks and their removal at the ends of a text

Three different sets of blanks occur in the formatter. Comments are trimmed of
every white space character of Unicode; source lines, which are looked at as
bytes, of the six ASCII ones; a printed line of spaces and tabs alone. Each set
is a predicate here, and trimming is one function for all three.
-/

namespace JavaFormat.Text

/-- The white space characters of Unicode together with the four information
separators U+001C to U+001F. -/
def isBlank (c : Char) : Bool :=
  let n := c.toNat
  (0x09 ≤ n && n ≤ 0x0D) || (0x1C ≤ n && n ≤ 0x20) || n == 0x85 || n == 0xA0 || n == 0x1680 ||
    (0x2000 ≤ n && n ≤ 0x200A) || n == 0x2028 || n == 0x2029 || n == 0x202F || n == 0x205F ||
    n == 0x3000

/-- The blanks among bytes: tab, line feed, vertical tab, form feed, carriage
return and space. -/
def isBlankByte (b : UInt8) : Bool := (0x09 ≤ b && b ≤ 0x0D) || b == 0x20

/-- The blanks that are never left at the end of a printed line. -/
def isPadding (c : Char) : Bool := c == ' ' || c == '\t'

/-- Drop the longest run of elements satisfying `p` at the end. -/
def dropEndWhile {α : Type} (p : α → Bool) (l : List α) : List α :=
  (l.reverse.dropWhile p).reverse

/-- A text without its leading blanks. -/
def trimStart (s : String) : String := String.ofList (s.toList.dropWhile isBlank)

/-- A text without its trailing blanks. -/
def trimEnd (s : String) : String := String.ofList (dropEndWhile isBlank s.toList)

/-- A text without its blanks at either end. -/
def trim (s : String) : String :=
  String.ofList (dropEndWhile isBlank (s.toList.dropWhile isBlank))

end JavaFormat.Text
