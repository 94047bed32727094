import JavaFormat.Text.Blank
import JavaFormat.Text.Utf8

/-!
# The source being formatted

A source is its bytes. Offsets count bytes from the start; a position adds the
line an offset is on and the bytes before it on that line, both counted from
zero. Comments are placed and blank lines kept by looking at whole lines, and a
line is blank if it holds nothing but ASCII white space.
-/

namespace JavaFormat

/-- A place between two bytes of a source. -/
structure Position where
  /-- The number of bytes before it. -/
  offset : Nat
  /-- The number of line feeds before it. -/
  line : Nat
  /-- The number of bytes between it and the last line feed before it. -/
  column : Nat
deriving DecidableEq, Repr

/-- A stretch of a source. -/
structure Span where
  start : Position
  stop : Position
deriving DecidableEq, Repr

/-- The bytes being formatted. -/
structure Source where
  bytes : List UInt8
deriving DecidableEq, Repr

namespace Source

/-- The byte that ends a line. -/
def lineFeed : UInt8 := 10

/-- The source that a text is written as. -/
def ofText (s : String) : Source := ⟨Text.Utf8.encode s⟩

/-- The lines, without the line feeds between them. There is at least one. -/
def lines (s : Source) : List (List UInt8) := s.bytes.splitOn lineFeed

/-- The position of an offset. -/
def position (s : Source) (offset : Nat) : Position :=
  let before := s.bytes.take offset
  { offset := offset
    line := before.count lineFeed
    column := (before.reverse.takeWhile (· != lineFeed)).length }

/-- The stretch between two offsets. -/
def span (s : Source) (start stop : Nat) : Span := ⟨s.position start, s.position stop⟩

/-- The bytes between two offsets; none if the second is not past the first. -/
def bytesBetween (s : Source) (start stop : Nat) : List UInt8 := (s.bytes.take stop).drop start

/-- The text between two offsets. -/
def slice (s : Source) (start stop : Nat) : Except Text.Utf8.Defect String :=
  Text.Utf8.decode (s.bytesBetween start stop)

/-- Whether bytes hold nothing but white space. -/
def isBlankBytes (bytes : List UInt8) : Bool := bytes.all Text.isBlankByte

/-- Whether there is a line of this number and it is blank. -/
def isBlankLine (s : Source) (line : Nat) : Bool :=
  match s.lines[line]? with
  | some bytes => isBlankBytes bytes
  | none => false

/-- The number of blank lines directly above a line. -/
def blankLinesBefore (s : Source) (line : Nat) : Nat :=
  ((s.lines.take line).reverse.takeWhile isBlankBytes).length

/-- The number of blank lines that stand directly at the line of this number and
below it. -/
def blankLinesFrom (s : Source) (line : Nat) : Nat :=
  ((s.lines.drop line).takeWhile isBlankBytes).length

/-- The number of blank lines directly below a line. -/
def blankLinesAfter (s : Source) (line : Nat) : Nat := s.blankLinesFrom (line + 1)

/-- Whether only white space precedes a column on a line, if there is such a
line. -/
def startsLine? (s : Source) (line column : Nat) : Option Bool :=
  s.lines[line]?.map fun bytes => isBlankBytes (bytes.take column)

/-- Whether only white space follows a column on a line, if there is such a line. -/
def endsLine? (s : Source) (line column : Nat) : Option Bool :=
  s.lines[line]?.map fun bytes => isBlankBytes (bytes.drop column)

/-- Whether only white space precedes a position on its line. -/
def startsLine (s : Source) (p : Position) : Bool := (s.startsLine? p.line p.column).getD true

/-- Whether only white space follows a position on its line. -/
def endsLine (s : Source) (p : Position) : Bool := (s.endsLine? p.line p.column).getD true

end Source

end JavaFormat
