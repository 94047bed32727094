import JavaFormat.Syntax.Parsed
import JavaFormat.Text.Lines

/-!
# Files of trees

A parser can hand over its trees in a file. A line that begins with `@` goes on
with the path of a source file that it has seen. A line that begins with `=` goes
on with the bytes of a source in hexadecimal digits and is followed by the rows of
its tree, one a line: where the node starts and stops, the number of its
children, its marks, its part in its parent and its type, with a space between
each two. A mark is `n` for a node that the grammar names, `m` for a missing and
`e` for a faulty one; `-` stands for no mark or no part.

A source that the file has no tree of counts as faulty from its beginning to its
end, so it is never taken for an empty one.
-/

namespace JavaFormat.TreeFile

/-- The paths of the source files that a parser has seen. -/
def paths (contents : String) : List String :=
  (Text.lines contents).filterMap fun line =>
    match line.toList with
    | '@' :: path => some (String.ofList path)
    | _ => none

/-- The words of a line. -/
def words (line : String) : List String := (line.toList.splitOn ' ').map String.ofList

/-- The row that a line stands for. -/
def row? (line : String) : Option Concrete.Row :=
  match words line with
  | start :: stop :: count :: marks :: field :: type => do
    let start ← start.toNat?
    let stop ← stop.toNat?
    let count ← count.toNat?
    let marked (c : Char) : Bool := marks.toList.contains c
    return { info := { type := String.intercalate " " type, named := marked 'n', start := start
                       stop := stop, field := if field = "-" then none else some field
                       missing := marked 'm', faulty := marked 'e' }
             childCount := count }
  | _ => none

/-- The value of a hexadecimal digit. -/
def hexDigit? (c : Char) : Option Nat :=
  if c.isDigit then some (c.toNat - 48)
  else if 'a' ≤ c && c ≤ 'f' then some (c.toNat - 87)
  else none

/-- The bytes that hexadecimal digits spell. -/
def bytes? : List Char → Option (List UInt8)
  | [] => some []
  | [_] => none
  | a :: b :: rest => do
    let high ← hexDigit? a
    let low ← hexDigit? b
    return UInt8.ofNat (16 * high + low) :: (← bytes? rest)

/-- The sources of a file, each with the rows that follow it; rows in front of the
first source belong to none. -/
def sources : List String → List (Source × List Concrete.Row) × List Concrete.Row
  | [] => ([], [])
  | line :: rest =>
    let (found, rows) := sources rest
    match line.toList with
    | '=' :: digits =>
      match bytes? digits with
      | some bytes => ((⟨bytes⟩, rows) :: found, [])
      | none => (found, [])
    | _ =>
      match row? line with
      | some row => (found, row :: rows)
      | none => (found, rows)

/-- The tree of a source of which nothing is known. -/
def unknown (source : Source) : Concrete :=
  .node { type := "ERROR", named := true, start := 0, stop := source.bytes.length, faulty := true } []

/-- The grammar that delivers the trees of a file. -/
def grammar (contents : String) : Grammar :=
  let table := (sources (Text.lines contents)).1
  fun source =>
    match table.find? (·.1 == source) with
    | some (_, rows) => (Concrete.ofRows rows).head?.getD (unknown source)
    | none => unknown source

end JavaFormat.TreeFile
