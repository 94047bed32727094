/-!
# Paths

A path is a list of names, from the root of the file system or from the working
directory. Empty names and single dots say nothing and are dropped when a path is
read; double dots stay, since what they lead to depends on the file system.
-/

namespace JavaFormat

/-- A path. -/
structure Path where
  /-- Whether it starts at the root of the file system. -/
  absolute : Bool := false
  parts : List String
deriving DecidableEq, Repr

namespace Path

/-- The path that a text is read as. -/
def ofString (s : String) : Path where
  absolute := s.toList.head? == some '/'
  parts := ((s.toList.splitOn '/').map String.ofList).filter fun part => part != "" && part != "."

/-- The path as a text. -/
def toString (p : Path) : String :=
  let names := String.intercalate "/" p.parts
  if p.absolute then "/" ++ names else if p.parts.isEmpty then "." else names

/-- The path of something below. -/
def append (p : Path) (below : List String) : Path := { p with parts := p.parts ++ below }

/-- The components that paths are compared by. -/
def components (p : Path) : List String := if p.absolute then "/" :: p.parts else p.parts

/-- The order of lists of names, name by name. -/
def precedes : List String → List String → Bool
  | [], _ => true
  | _ :: _, [] => false
  | a :: as, b :: bs => if a = b then precedes as bs else decide (a < b)

/-- The order of paths. -/
def le (p q : Path) : Bool := precedes p.components q.components

/-- The last name of a path. -/
def name (p : Path) : String := p.parts.getLast?.getD ""

end Path

/-- What a name has from its last dot on; nothing if the dot is its first or last
character. -/
def suffixOf (name : List Char) : List Char :=
  let reversed := name.reverse
  let ending := (reversed.takeWhile (· != '.')).reverse
  match reversed.dropWhile (· != '.') with
  | _ :: stem => if stem.isEmpty || ending.isEmpty then [] else '.' :: ending
  | [] => []

/-- Whether a path is that of a Java source. -/
def Path.isJava (p : Path) : Bool :=
  (suffixOf p.name.toList).map Char.toLower == ".java".toList

end JavaFormat
