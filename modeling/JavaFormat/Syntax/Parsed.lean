import JavaFormat.Syntax.Comment
import JavaFormat.Syntax.Fault
import JavaFormat.Syntax.Tree
import JavaFormat.Text.Sorting

/-!
# Parsed sources

A concrete tree is turned into a tree without comments and a list of comments.
Tokens and verbatim nodes become leaves; whatever the grammar puts below them is
dropped. A branch is numbered after its children, and it reaches from the
beginning of its first child to the end of its last, so comments at its margins
are outside of it.

The roots of a parsed source are what layout begins with: the compilation unit,
or the parts of a fragment found inside its scaffold.
-/

namespace JavaFormat

/-- What becomes of a concrete node. -/
inductive ConcreteInfo.Part where
  | comment (isLine : Bool)
  | leaf (kind : NodeKind)
  | branch (kind : NodeKind)
  /-- The grammar's name is not known. -/
  | unknown

/-- Tell what becomes of a concrete node. -/
def ConcreteInfo.part (info : ConcreteInfo) : Part :=
  if info.type = "line_comment" then .comment true
  else if info.type = "block_comment" then .comment false
  else if !info.named then .leaf .token
  else
    match NodeKind.ofName? info.type with
    | none => .unknown
    | some kind => if kind.isVerbatim then .leaf kind else .branch kind

/-- The text of a concrete node. -/
def ConcreteInfo.text (source : Source) (info : ConcreteInfo) : Except FormatError String :=
  match source.slice info.start info.stop with
  | .ok s => .ok s
  | .error d => .error (.undecodable d)

/-- What some concrete trees came to. -/
structure Harvest where
  trees : List Tree
  /-- The comments in the order of the tree. -/
  comments : List Comment
  /-- The number of the next node. -/
  next : Nat

namespace Harvest

/-- The span of a branch: that of its children, or its own if it has none. -/
def spanOver (own : Span) : List Tree → Span
  | [] => own
  | t :: ts => ⟨t.span.start, ((t :: ts).getLast (by simp)).span.stop⟩

/-- Put what was found below a node into a branch. -/
def enclose (source : Source) (info : ConcreteInfo) (kind : NodeKind) (field : Option String)
    (below : Harvest) : Tree :=
  .branch ⟨below.next, kind, field, spanOver (source.span info.start info.stop) below.trees⟩
    below.trees

/-- What was found in some trees and then in others. -/
def append (first rest : Harvest) : Harvest :=
  ⟨first.trees ++ rest.trees, first.comments ++ rest.comments, rest.next⟩

end Harvest

namespace Concrete

mutual

/-- Convert a tree, numbering its nodes from `next` on. -/
def harvest (source : Source) (next : Nat) : Concrete → Except FormatError Harvest
  | .node info children =>
    match info.part with
    | .comment isLine => do
      let text ← info.text source
      let span := source.span info.start info.stop
      return ⟨[], [⟨if isLine then Text.trimEnd text else text, isLine, span⟩], next⟩
    | .leaf kind => do
      let text ← info.text source
      let span := source.span info.start info.stop
      return ⟨[.leaf ⟨next, kind, info.field, span⟩ text], [], next + 1⟩
    | .branch kind => do
      let below ← harvestAll source next children
      return ⟨[below.enclose source info kind info.field], below.comments, below.next + 1⟩
    | .unknown => .error (.unhandledKind info.type)

/-- Convert trees one after the other. -/
def harvestAll (source : Source) (next : Nat) : List Concrete → Except FormatError Harvest
  | [] => return ⟨[], [], next⟩
  | t :: ts => do
    let first ← t.harvest source next
    let rest ← harvestAll source first.next ts
    return first.append rest

end

/-- The order of comments in a source. -/
def startsBefore (a b : Comment) : Bool := a.span.start.offset ≤ b.span.start.offset

/-- Convert a whole tree. The root becomes a branch whatever it is; the comments
are put into the order of the source. -/
def convert (source : Source) : Concrete → Except FormatError (Tree × List Comment)
  | .node info children => do
    let below ← harvestAll source 0 children
    match NodeKind.ofName? info.type with
    | none => .error (.unhandledKind info.type)
    | some kind =>
      return (below.enclose source info kind none, Text.sort startsBefore below.comments)

end Concrete

/-- A source ready for layout. -/
structure Parsed where
  /-- The whole tree, scaffold included. -/
  whole : Tree
  /-- The nodes that layout begins with, from left to right. -/
  roots : List Tree
  /-- The kind of the node that the roots are the children of. -/
  rootParent : Option NodeKind
  /-- The comments in the order of the source. -/
  comments : List Comment
  source : Source

namespace Parsed

/-- Children without the braces around them. -/
def withoutBraces (ts : List Tree) : List Tree :=
  ts.filter fun t => !(t.isToken "\x7b" || t.isToken "\x7d")

/-- The class body of a scaffold. -/
def scaffoldBody? (whole : Tree) : Option Tree := do
  let declaration ← whole.firstOf? [.classDeclaration]
  declaration.firstOf? [.classBody]

/-- The roots of a source, and the kind of the node they are the children of;
`none` if a fragment broke out of its scaffold. -/
def roots? (whole : Tree) : EntryPoint → Option (List Tree × Option NodeKind)
  | .compilationUnit => some ([whole], none)
  | .classBodyDeclarations => do
    let body ← scaffoldBody? whole
    return (withoutBraces body.children, some body.kind)
  | .blockStatements => do
    let body ← scaffoldBody? whole
    let method ← body.firstOf? [.methodDeclaration]
    let block ← method.firstOf? [.block]
    return (withoutBraces block.children, some block.kind)
  | .expression => do
    let body ← scaffoldBody? whole
    let field ← body.firstOf? [.fieldDeclaration]
    let declarator ← field.firstOf? [.variableDeclarator]
    let value ← declarator.child? "value"
    return ([value], some declarator.kind)

/-- Read a concrete tree of a scaffolded source. -/
def ofConcrete (source : Source) (entry : EntryPoint) (t : Concrete) :
    Except FormatError Parsed := do
  if t.info.faulty then throw (.syntaxError (t.syntaxError source entry))
  let (whole, comments) ← t.convert source
  match roots? whole entry with
  | some (roots, rootParent) => return ⟨whole, roots, rootParent, comments, source⟩
  | none => throw (.syntaxError ⟨.notFragment entry, 1, 1⟩)

end Parsed

/-- A grammar delivers a concrete tree for every source. -/
abbrev Grammar := Source → Concrete

/-- Parse a text by a grammar, as the given entry point says. -/
def Grammar.parse (grammar : Grammar) (text : String) (entry : EntryPoint) :
    Except FormatError Parsed :=
  let source := Source.ofText (entry.scaffolded text)
  Parsed.ofConcrete source entry (grammar source)

end JavaFormat
