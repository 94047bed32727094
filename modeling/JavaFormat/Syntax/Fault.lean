import JavaFormat.Error
import JavaFormat.Syntax.Concrete

/-!
# The first fault of a source

A parser always delivers a tree and marks what it could not make sense of. The
fault reported is the first faulty node in the order of the source, looked for
only where the marks lead.
-/

namespace JavaFormat

/-- Whether a node is itself a fault. -/
def ConcreteInfo.isFault (info : ConcreteInfo) : Bool := info.type == "ERROR" || info.missing

/-- Whether the marks of a node lead to a fault. -/
def ConcreteInfo.isMarked (info : ConcreteInfo) : Bool := info.faulty || info.missing

namespace Concrete

mutual

/-- The first fault at or below a node, each node before the nodes below it. -/
def firstFault? : Concrete → Option ConcreteInfo
  | .node info children => if info.isFault then some info else firstFaultBelow? children

/-- The first fault at or below those of several nodes that are marked. -/
def firstFaultBelow? : List Concrete → Option ConcreteInfo
  | [] => none
  | t :: ts =>
    if t.info.isMarked then
      match t.firstFault? with
      | some found => some found
      | none => firstFaultBelow? ts
    else firstFaultBelow? ts

end

/-- The number of characters of a faulty place that are shown. -/
def snippetLength : Nat := 40

/-- The beginning of the first line of a faulty place. -/
def snippet (source : Source) (info : ConcreteInfo) : String :=
  let text := Text.Utf8.decodeLossy (source.bytesBetween info.start info.stop)
  String.ofList ((text.toList.takeWhile (· != '\n')).take snippetLength)

/-- The error of a faulty tree. Lines in front of a fragment do not count. -/
def syntaxError (source : Source) (entry : EntryPoint) (t : Concrete) : SyntaxError :=
  match t.firstFault? with
  | some info =>
    let p := source.position info.start
    { fault := if info.missing then .missing info.type else .unexpected (snippet source info)
      line := p.line - entry.openingLines + 1
      column := p.column + 1 }
  | none => ⟨.invalid, 1, 1⟩

end Concrete

end JavaFormat
