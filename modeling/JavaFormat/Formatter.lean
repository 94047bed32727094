import JavaFormat.Doc.Render
import JavaFormat.Layout.Rule
import JavaFormat.Retention

/-!
# Formatting a source

A source is parsed, its comments are attached, it is laid out and rendered, and
the output is parsed again: it must still be Java and have the comments of the
source. The parser and the renderer are exchangeable.
-/

namespace JavaFormat

/-- A parser and a renderer. -/
structure Formatter where
  parse : String → EntryPoint → Except FormatError Parsed
  render : Options → Doc → Except FormatError String

namespace Formatter

/-- Render by the layout machine. -/
def renderDoc (options : Options) (d : Doc) : Except FormatError String :=
  match Doc.render? options d with
  | some s => .ok s
  | none => .error .noState

/-- The formatter of a grammar. -/
def ofGrammar (grammar : Grammar) : Formatter where
  parse := grammar.parse
  render := renderDoc

/-- The document of a parsed source. -/
def layOut (options : Options) (p : Parsed) : Except FormatError Doc := do
  let attachments ← p.attach options.tieBreak
  match Layout.document p attachments with
  | .ok d => return d
  | .error e => throw (.badShape e)

/-- A source, parsed, and its document. -/
def build (f : Formatter) (options : Options) (entry : EntryPoint) (source : String) :
    Except FormatError (Parsed × Doc) := do
  let parsed ← f.parse source entry
  return (parsed, ← layOut options parsed)

/-- The output, parsed again. A syntax error is then a fault of the formatter. -/
def reparse (f : Formatter) (entry : EntryPoint) (output : String) :
    Except FormatError Parsed :=
  match f.parse output entry with
  | .error (.syntaxError e) => .error (.invalidOutput e)
  | result => result

/-- The formatted source. -/
def format (f : Formatter) (options : Options) (entry : EntryPoint) (source : String) :
    Except FormatError String := do
  let (parsed, d) ← f.build options entry source
  let output ← f.render options d
  let formatted ← f.reparse entry output
  Retention.check parsed formatted
  return output

end Formatter

end JavaFormat
