import JavaFormat.Text.Lines

/-!
# Entry points

A source is a whole compilation unit or a fragment of one: members of a class
body, statements of a block or a single expression. A fragment is read inside a
scaffold that makes it a compilation unit. The text before a fragment ends in a
line feed, so the fragment keeps its own columns.
-/

namespace JavaFormat

/-- What a source is read as. -/
inductive EntryPoint where
  | compilationUnit
  | classBodyDeclarations
  | blockStatements
  | expression
deriving DecidableEq, Repr

namespace EntryPoint

/-- The word for an entry point. -/
def name : EntryPoint → String
  | .compilationUnit => "compilationUnit"
  | .classBodyDeclarations => "classBodyDeclarations"
  | .blockStatements => "blockStatements"
  | .expression => "expression"

/-- The entry point that a word stands for. -/
def ofName? (s : String) : Option EntryPoint :=
  if s = "compilationUnit" then some .compilationUnit
  else if s = "classBodyDeclarations" then some .classBodyDeclarations
  else if s = "blockStatements" then some .blockStatements
  else if s = "expression" then some .expression
  else none

/-- What a fragment is preceded by. -/
def opening : EntryPoint → String
  | .compilationUnit => ""
  | .classBodyDeclarations => "class __JavaLayoutFragment__ \x7b\n"
  | .blockStatements => "class __JavaLayoutFragment__ \x7b\nvoid __fragment__() \x7b\n"
  | .expression => "class __JavaLayoutFragment__ \x7b\nObject __fragment__ =\n"

/-- What a fragment is followed by. -/
def closing : EntryPoint → String
  | .compilationUnit => ""
  | .classBodyDeclarations => "\n\x7d\n"
  | .blockStatements => "\n\x7d\n\x7d\n"
  | .expression => "\n;\n\x7d\n"

/-- The compilation unit that a source is read as. -/
def scaffolded (entry : EntryPoint) (source : String) : String :=
  entry.opening ++ Text.unifyNewlines source ++ entry.closing

/-- The lines in front of a fragment. -/
def openingLines (entry : EntryPoint) : Nat := entry.opening.toList.count '\n'

/-- Reading an entry point's word gives the entry point back. -/
theorem ofName?_name (entry : EntryPoint) : ofName? entry.name = some entry := by
  cases entry <;> decide

end EntryPoint

end JavaFormat
